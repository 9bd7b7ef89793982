import SymWord.Proofs.CanonicalValues

/-!
# Negation undone

Both unary operations undo themselves on terms in normal form, not only in value but as trees
(`mkUnary_mkUnary`). A negated comparison is the opposite comparison of the same operands, whichever
way the comparison is simplified: the opposite one is folded, turned round and solved at the same
places, and where a comparison of one bit with a literal is the bit, the opposite one is the negated
bit (`mkUnary_not_mkCompare`).
-/

namespace SymWord

namespace Term

variable {t l r : Term} {c cw : Nat}

/-- What stands under a negation in normal form can take the negation again. -/
theorem mkUnary_mkUnary {op : UnaryOp} (h : t.WellFormed) (hn : t.Normal) :
    mkUnary op (mkUnary op t) = t := by
  fun_cases mkUnary op t with
  | case1 v w =>
    have hlt := UnaryOp.eval_lt op v w
    rw [const, mkUnary, const, Word.truncate_of_lt hlt, UnaryOp.eval_eval op h.1,
      Word.truncate_of_lt h.1]
  | case2 x => exact hn.2
  | case4 cmp l r hop => rw [hop, mkUnary, if_pos rfl, Comparison.negate_negate]
  | case3 | case5 | case6 => simp [mkUnary]

theorem mkUnary_not_ofBool (b : Bool) : mkUnary .not (ofBool b) = ofBool !b := by
  cases b <;> rfl

/-- One bit compared with a literal is the bit for one comparison and the negated bit for the
opposite one. -/
theorem mkUnary_not_compareLit {op : Comparison} (h : t.WellFormed) (hn : t.Normal) :
    mkUnary .not (compareLit op t c cw) = compareLit op.negate t c cw := by
  have hflip : op.isEquality = true → (op.negate == .eq) = !(op == .eq) := by
    cases op <;> decide
  unfold compareLit
  rw [Comparison.isEquality_negate]
  split
  · rename_i hop
    rw [hflip hop.1]
    by_cases hpos : (op == .eq) = (c == 1)
    · rw [if_pos hpos, if_neg (by simp [hpos])]
    · rw [if_neg hpos, if_pos (by rw [Bool.eq_not_of_ne hpos, Bool.not_not]), mkUnary_mkUnary h hn]
  · rw [mkUnary, if_pos rfl]

theorem mkUnary_not_mkCompareLit {op : Comparison} (h : t.WellFormed) (hn : t.Normal) :
    mkUnary .not (mkCompareLit op t c cw) = mkCompareLit op.negate t c cw := by
  fun_induction mkCompareLit op t c cw with
  | case1 c cw v w => rw [mkUnary_not_ofBool, mkCompareLit, Comparison.eval_negate]
  | case2 c cw x d dw hop ih | case4 c cw x d dw hop ih =>
    rw [ih h.1 hn.1, mkCompareLit, Comparison.isEquality_negate, if_pos hop]
  | case3 c cw x d dw hop | case5 c cw x d dw hop =>
    rw [mkUnary_not_compareLit h hn, mkCompareLit, Comparison.isEquality_negate, if_neg hop]
  | case6 c cw u x hop ih =>
    rw [ih h hn.1, mkCompareLit, Comparison.isEquality_negate, if_pos hop]
  | case7 c cw u x hop =>
    rw [mkUnary_not_compareLit h hn, mkCompareLit, Comparison.isEquality_negate, if_neg hop]
  | case8 c cw t hlit hadd hxor hunary =>
    rw [mkUnary_not_compareLit h hn, mkCompareLit] <;> assumption

theorem mkUnary_not_mkCompare {op : Comparison} (h : (compare op l r).WellFormed) (hl : l.Normal)
    (hr : r.Normal) : mkUnary .not (mkCompare op l r) = mkCompare op.negate l r := by
  obtain ⟨hwl, hwr, -⟩ := h
  unfold mkCompare
  split
  · rw [mkUnary_not_ofBool, Comparison.eval_negate]
  · rw [mkUnary_not_mkCompareLit hwr hr, Comparison.swap_negate]
  · exact mkUnary_not_mkCompareLit hwl hl
  · split
    · rw [mkUnary_not_ofBool, Comparison.isReflexive_negate]
    · rw [mkUnary, if_pos rfl]

end Term

namespace Value

open Term

variable {v x y : Value}

theorem Canonical.normal (h : v.Canonical) : v.term.Normal := by
  rw [← h.normalize_eq]
  exact normalize_normal v.term h.wellFormed

theorem binary_eq {op : BinaryOp} (hw : x.width = y.width) :
    x.binary op y = .ok ⟨mkBinary op x.term y.term⟩ := by
  rw [binary, agree, if_pos hw]
  rfl

theorem compare_eq {op : Comparison} (hw : x.width = y.width) :
    x.compare op y = .ok ⟨mkCompare op x.term y.term⟩ := by
  rw [compare, agree, if_pos hw]
  rfl

/-- Comparing values of one width and negating the truth value gives what the opposite comparison
gives. Complement and negation give a value back when they are applied twice. -/
theorem not_compare_eq_opposite :
    (∀ (op : Comparison) (x y : Value), x.Canonical → y.Canonical → x.width = y.width →
      ∃ u, x.compare op y >>= Value.not = .ok u ∧ x.compare op.negate y = .ok u)
      ∧ ∀ v : Value, v.Canonical → v.complement.complement = v ∧ v.negate.negate = v := by
  refine ⟨fun op x y hx hy hw => ⟨_, ?_, compare_eq hw⟩, fun v hv => ?_⟩
  · have hnode : (Term.compare op x.term y.term).WellFormed := ⟨hx.wellFormed, hy.wellFormed, hw⟩
    have hone : (mkCompare op x.term y.term).width = 1 := (mkCompare_replaces hnode).width_eq
    rw [compare_eq hw, ← mkUnary_not_mkCompare hnode hx.normal hy.normal]
    exact if_pos hone
  · exact ⟨congrArg mk (mkUnary_mkUnary hv.wellFormed hv.normal),
      congrArg mk (mkUnary_mkUnary hv.wellFormed hv.normal)⟩

/-- An equality that is solved for the symbol on both sides, and one bit that stands for itself. -/
theorem not_compare_eq_opposite_solved :
    let x : Value := ⟨.unary .not (.binary .add (.sym "a" 8) (.lit 3 8))⟩
    let b : Value := ⟨.unary .not (.sym "b" 1)⟩
    x.compare .eq ⟨.lit 0xF0 8⟩ >>= Value.not = .ok ⟨.compare .ne (.sym "a" 8) (.lit 12 8)⟩
      ∧ b.compare .ne ⟨.lit 0 1⟩ >>= Value.not = .ok ⟨.sym "b" 1⟩
      ∧ x.complement.complement = x := by
  intro x b
  obtain ⟨u, hnot, hu⟩ := not_compare_eq_opposite.1 .eq x ⟨.lit 0xF0 8⟩ (by decide) (by decide) rfl
  obtain ⟨u', hnot', hu'⟩ := not_compare_eq_opposite.1 .ne b ⟨.lit 0 1⟩ (by decide) (by decide) rfl
  exact ⟨hnot.trans (hu.symm.trans (by rfl)), hnot'.trans (hu'.symm.trans (by rfl)),
    (not_compare_eq_opposite.2 x (by decide)).1⟩

end Value

end SymWord
