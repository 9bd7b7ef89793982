import SymWord.Proofs.XorChains

/-!
# Equalities solved

An equality with a literal is solved for what stands under `+`, `^`, `~` and `-`: the operation goes
to the other side as its inverse (`Undoes`). The operation need not have become a node of its own.
It may have gone into a literal, undone another one, joined a chain or become a complement, and the
rules come to the same equality in each case (`mkCompareLit_mkUnary`, `mkCompareLit_mkBinaryLit`).
This is so above one bit. An equality of single bits is not solved: it is the bit or its negation.
-/

namespace SymWord

/-- The second operator takes off what the first one puts on. -/
inductive BinaryOp.Undoes : BinaryOp → BinaryOp → Prop where
  | add : Undoes .add .sub
  | xor : Undoes .xor .xor

namespace BinaryOp.Undoes

variable {op inv : BinaryOp} {a c d e w : Nat}

theorem isAssociative (h : Undoes op inv) : op.isAssociative = true := by
  cases h <;> rfl

theorem eval_eq_iff (h : Undoes op inv) (ha : a < 2 ^ w) (hd : d < 2 ^ w) :
    op.eval a c w = d ↔ a = inv.eval d c w := by
  cases h with
  | add => exact eval_add_eq_iff ha hd
  | xor => exact eval_xor_eq_iff ha hd

theorem eval_zero (h : Undoes op inv) (hd : d < 2 ^ w) : inv.eval d 0 w = d := by
  cases h with
  | add => exact eval_sub_zero hd
  | xor => exact eval_xor_zero hd

/-- What is put on in two steps is taken off in two, the last one first. -/
theorem eval_eval (h : Undoes op inv) (hd : d < 2 ^ w) :
    inv.eval d (op.eval e c w) w = inv.eval (inv.eval d c w) e w := by
  have hlt := eval_lt inv d (op.eval e c w) w
  rw [← h.eval_eq_iff hlt (eval_lt inv d c w), ← h.eval_eq_iff (eval_lt op _ e w) hd,
    eval_assoc h.isAssociative]
  exact (h.eval_eq_iff hlt hd).2 rfl

end BinaryOp.Undoes

namespace Term

variable {t u x : Term} {op inv : BinaryOp} {cmp : Comparison} {c cw d w : Nat}

theorem mkCompare_lit : mkCompare cmp t (lit c cw) = mkCompareLit cmp t c cw := by
  cases t <;> rfl

/-! ## One operation -/

theorem mkCompareLit_unary {op : UnaryOp} (hcmp : cmp.isEquality = true) (hone : x.width ≠ 1) :
    mkCompareLit cmp (unary op x) d cw = mkCompareLit cmp x (op.eval d x.width) x.width := by
  rw [mkCompareLit, if_pos ⟨hcmp, hone⟩]

theorem mkCompareLit_binary (h : op.Undoes inv) (hcmp : cmp.isEquality = true)
    (hone : x.width ≠ 1) :
    mkCompareLit cmp (binary op x (lit c cw)) d w
      = mkCompareLit cmp x (inv.eval d c x.width) x.width := by
  cases h <;> rw [mkCompareLit, if_pos ⟨hcmp, hone⟩]

theorem mkCompareLit_mkUnary {op : UnaryOp} (hcmp : cmp.isEquality = true) (h : t.WellFormed)
    (hw : t.width = w) (hone : w ≠ 1) (hd : d < 2 ^ w) :
    mkCompareLit cmp (mkUnary op t) d w = mkCompareLit cmp t (op.eval d w) w := by
  subst hw
  fun_cases mkUnary op t with
  | case1 v w =>
    have heval : cmp.eval (op.eval v w) d w = cmp.eval v (op.eval d w) w :=
      Comparison.eval_congr_of_isEquality hcmp (op.eval_lt v w) hd h.1 (op.eval_lt d w)
        (op.eval_eq_iff h.1 hd)
    rw [const, Word.truncate_of_lt (op.eval_lt v w), mkCompareLit, mkCompareLit, width, heval]
  | case2 x =>
    have hx : x.width ≠ 1 := hone
    have hback : op.eval (op.eval d x.width) x.width = d := op.eval_eval hd
    rw [width, mkCompareLit_unary hcmp hx, hback]
  | case4 l r _ => exact absurd rfl hone
  | case3 | case5 | case6 => exact mkCompareLit_unary hcmp hone

/-! ## Literals of a chain -/

theorem mkCompareLit_trivial? (h : op.Undoes inv) (hcmp : cmp.isEquality = true)
    (ht : t.WellFormed) (hw : t.width = w) (hone : w ≠ 1) (hd : d < 2 ^ w)
    (hu : trivial? op w t c w = some u) :
    mkCompareLit cmp u d w = mkCompareLit cmp t (inv.eval d c w) w := by
  by_cases hzero : c = 0
  · subst hzero
    have htriv : trivial? op w t 0 w = some t := by cases h <;> rfl
    rw [h.eval_zero hd, Option.some.inj (hu.symm.trans htriv)]
  cases h with
  | add =>
    rw [trivial?, if_neg hzero] at hu
    cases hu
  | xor =>
    by_cases hmask : c = Word.mask w
    · subst hmask
      obtain rfl := Option.some.inj ((trivial?_xor_mask (hw ▸ ht.width_pos)).symm.trans hu)
      rw [mkCompareLit_mkUnary hcmp ht hw hone hd, BinaryOp.eval_xor_mask hd]
    · rw [trivial?_xor hzero hmask] at hu
      cases hu

theorem mkCompareLit_mkBinaryLit (h : op.Undoes inv) (hcmp : cmp.isEquality = true)
    (hnode : (binary op t (lit c cw)).WellFormed) (hw : t.width = w) (hone : w ≠ 1)
    (hd : d < 2 ^ w) :
    mkCompareLit cmp (mkBinaryLit op w t c cw) d w = mkCompareLit cmp t (inv.eval d c w) w := by
  fun_induction mkBinaryLit op w t c cw with
  | case1 w c cw v vw =>
    obtain rfl : vw = w := hw
    have heval : cmp.eval (op.eval v c vw) d vw = cmp.eval v (inv.eval d c vw) vw :=
      Comparison.eval_congr_of_isEquality hcmp (op.eval_lt v c vw) hd hnode.1.1
        (inv.eval_lt d c vw) (h.eval_eq_iff hnode.1.1 hd)
    rw [const, Word.truncate_of_lt (op.eval_lt v c vw), mkCompareLit, mkCompareLit, heval]
  | case2 w c cw op' x e ew u hu =>
    obtain rfl : w = cw := hw.symm.trans hnode.2.2
    exact mkCompareLit_trivial? h hcmp hnode.1 hw hone hd hu
  | case3 w c cw op' x e ew _ hchain ih =>
    -- the literals put together go over at once, those of the chain one after the other
    obtain ⟨hassoc, rfl⟩ := hchain
    obtain rfl : x.width = w := hw
    obtain rfl : x.width = cw := hnode.2.2
    have hmerged := (replaces_chain hassoc hnode).wellFormed
    rw [ih hmerged rfl hone hd, mkCompareLit_binary h hcmp hone, h.eval_eval hd]
  | case5 w c cw t _ _ u hu =>
    obtain rfl : w = cw := hw.symm.trans hnode.2.2
    exact mkCompareLit_trivial? h hcmp hnode.1 hw hone hd hu
  | case4 | case6 =>
    subst hw
    exact mkCompareLit_binary h hcmp hone

end Term

namespace Value

open Term

variable {v c d : Value} {cmp : Comparison} {k l w : Nat}

theorem compare_lit (hw : v.width = w) :
    v.compare cmp ⟨.lit k w⟩ = .ok ⟨mkCompareLit cmp v.term k w⟩ := by
  rw [compare_eq (y := ⟨.lit k w⟩) hw, mkCompare_lit]

theorem compare_binary_solved {op inv : BinaryOp} (h : op.Undoes inv)
    (hcmp : cmp.isEquality = true) (hv : v.Canonical) (hw : v.width = w) (hone : w ≠ 1)
    (hk : k < 2 ^ w) (hl : l < 2 ^ w) :
    ∃ u, v.binary op ⟨.lit k w⟩ >>= (·.compare cmp ⟨.lit l w⟩) = .ok u
      ∧ (⟨.lit l w⟩ : Value).binary inv ⟨.lit k w⟩ >>= v.compare cmp = .ok u := by
  have hsub : op ≠ .sub := BinaryOp.ne_sub_of_isCommutative h.isAssociative
  have hnode : (Term.binary op v.term (.lit k w)).WellFormed :=
    ⟨hv.wellFormed, ⟨hk, hw ▸ hv.wellFormed.valid⟩, hw⟩
  refine ⟨⟨mkCompareLit cmp v.term (inv.eval l k w) w⟩, ?_, ?_⟩
  · rw [binary_lit hw, mkBinary_lit hsub hw, ← mkCompareLit_mkBinaryLit h hcmp hnode hw hone hl]
    exact compare_lit ((mkBinaryLit_replaces hnode hw).width_eq.trans hw)
  · rw [lit_binary_lit]
    exact compare_lit hw

theorem compare_unary_solved {op : UnaryOp} (hcmp : cmp.isEquality = true) (hv : v.Canonical)
    (hw : v.width = w) (hone : w ≠ 1) (hl : l < 2 ^ w) :
    ∃ u, (⟨mkUnary op v.term⟩ : Value).compare cmp ⟨.lit l w⟩ = .ok u
      ∧ v.compare cmp ⟨mkUnary op (.lit l w)⟩ = .ok u := by
  refine ⟨⟨mkCompareLit cmp v.term (op.eval l w) w⟩, ?_, ?_⟩
  · rw [← mkCompareLit_mkUnary hcmp hv.wellFormed hw hone hl]
    exact compare_lit ((mkUnary_replaces op hv.wellFormed).width_eq.trans hw)
  · rw [mkUnary, const, Word.truncate_of_lt (op.eval_lt l w)]
    exact compare_lit hw

/-- Above one bit, an equality of `v + c`, `v ^ c`, `~v` or `-v` with a literal is the same value as
the equality of `v` with what the operation takes the literal back to. -/
theorem compare_eq_solved (hv : v.Canonical) (hc : c.Canonical) (hd : d.Canonical)
    (hclit : c.isConcrete = true) (hdlit : d.isConcrete = true) (hcw : c.width = v.width)
    (hdw : d.width = v.width) (hwide : 2 ≤ v.width) :
    ∀ cmp ∈ [Comparison.eq, .ne],
      (∃ u, v.binary .add c >>= (·.compare cmp d) = .ok u
        ∧ d.binary .sub c >>= v.compare cmp = .ok u)
      ∧ (∃ u, v.binary .xor c >>= (·.compare cmp d) = .ok u
        ∧ d.binary .xor c >>= v.compare cmp = .ok u)
      ∧ (∃ u, v.complement.compare cmp d = .ok u ∧ v.compare cmp d.complement = .ok u)
      ∧ ∃ u, v.negate.compare cmp d = .ok u ∧ v.compare cmp d.negate = .ok u := by
  intro cmp hmem
  have hcmp : cmp.isEquality = true := by
    revert cmp
    decide
  obtain ⟨w, hw⟩ : ∃ w, v.width = w := ⟨_, rfl⟩
  have hone : w ≠ 1 := by omega
  obtain ⟨k, hk, rfl⟩ := hc.exists_lit hclit (hcw.trans hw)
  obtain ⟨l, hl, rfl⟩ := hd.exists_lit hdlit (hdw.trans hw)
  exact ⟨compare_binary_solved .add hcmp hv hw hone hk hl,
    compare_binary_solved .xor hcmp hv hw hone hk hl, compare_unary_solved hcmp hv hw hone hl,
    compare_unary_solved hcmp hv hw hone hl⟩

/-- All ones that become a complement over a chain, and negations that meet: each is solved for the
symbol. -/
theorem compare_eq_solved_nested :
    let v : Value := ⟨.unary .neg (.binary .add (.sym "a" 8) (.lit 3 8))⟩
    let d : Value := ⟨.lit 0xF0 8⟩
    v.binary .xor ⟨.lit 0xFF 8⟩ >>= (·.compare .ne d)
        = .ok ⟨.compare .ne (.sym "a" 8) (.lit 0xEE 8)⟩
      ∧ v.negate.compare .eq d = .ok ⟨.compare .eq (.sym "a" 8) (.lit 0xED 8)⟩ := by
  intro v d
  have hsolved := compare_eq_solved (v := v) (c := ⟨.lit 0xFF 8⟩) (d := d) (by decide) (by decide)
    (by decide) rfl rfl rfl rfl (by decide)
  obtain ⟨u, hxor, hu⟩ := (hsolved .ne (by decide)).2.1
  obtain ⟨u', hneg, hu'⟩ := (hsolved .eq (by decide)).2.2.2
  exact ⟨hxor.trans (hu.symm.trans (by rfl)), hneg.trans (hu'.symm.trans (by rfl))⟩

end Value

end SymWord
