import SymWord.Proofs.Replacement
import SymWord.Term.Normal.Operators

/-!
# The rules for operator nodes are sound

What `mkUnary`, `mkBinary` and `mkCompare` make of well-formed operands replaces the node over the
same operands. Each rule is a law of the operators; where a rule is applied again to what is left,
the law makes the step and the induction the rest.
-/

namespace SymWord

namespace Term

variable {t u l r : Term} {c w : Nat}

theorem mkUnary_replaces (op : UnaryOp) (h : t.WellFormed) :
    Replaces (mkUnary op t) (unary op t) := by
  fun_cases mkUnary op t with
  | case1 v w =>
    exact replaces_const (t := unary op (lit v w)) h (fun _ => rfl) (UnaryOp.eval_lt op v w)
  | case2 x =>
    exact
      { wellFormed := h
        width_eq := rfl
        denote_eq := fun I => (UnaryOp.eval_eval op (denote_lt I (t := x) h)).symm
        mentions_subset := List.Subset.refl _ }
  | case4 cmp l r hop =>
    exact
      { wellFormed := h
        width_eq := rfl
        denote_eq := fun I => by
          rw [hop, denote, denote, denote, Comparison.eval_negate, width, UnaryOp.eval_not_toNat]
        mentions_subset := List.Subset.refl _ }
  | case3 | case5 | case6 => exact Replaces.refl h

/-- An operand in the place of the node, if the node stands for the same number. -/
theorem replaces_operand {op : BinaryOp} (h : (binary op t u).WellFormed)
    (hd : ∀ I, op.eval (t.denote I) (u.denote I) t.width = t.denote I) :
    Replaces t (binary op t u) where
  wellFormed := h.1
  width_eq := rfl
  denote_eq I := (hd I).symm
  mentions_subset := List.subset_append_left _ _

/-- A literal that is a unit of the operator. -/
theorem replaces_of_unit {op : BinaryOp} {k : Nat} (h : (binary op t (lit c t.width)).WellFormed)
    (hu : (if c = k then some t else none) = some u)
    (hd : ∀ I, op.eval (t.denote I) k t.width = t.denote I) :
    Replaces u (binary op t (lit c t.width)) := by
  obtain ⟨rfl, rfl⟩ := by simpa only [Option.ite_none_right_eq_some, Option.some.injEq] using hu
  exact replaces_operand h hd

/-- A literal under which the operator gives zero. -/
theorem replaces_of_absorbing {op : BinaryOp} {k : Nat}
    (h : (binary op t (lit c t.width)).WellFormed)
    (hu : (if c = k then some (zero t.width) else none) = some u)
    (hd : ∀ I, op.eval (t.denote I) k t.width = 0) :
    Replaces u (binary op t (lit c t.width)) := by
  obtain ⟨rfl, rfl⟩ := by simpa only [Option.ite_none_right_eq_some, Option.some.injEq] using hu
  exact replaces_zero h hd

theorem trivial?_replaces {op : BinaryOp} (h : (binary op t (lit c t.width)).WellFormed)
    (hu : trivial? op t.width t c t.width = some u) :
    Replaces u (binary op t (lit c t.width)) := by
  have hw := h.1.width_pos
  have ht := fun I => denote_lt I h.1
  have hmask : Word.isMask c t.width = true → c = Word.mask t.width := (Word.isMask_iff c _).1
  cases op with
  | add => exact replaces_of_unit h hu fun I => BinaryOp.eval_add_zero (ht I)
  | sub => exact replaces_of_unit h hu fun I => BinaryOp.eval_sub_zero (ht I)
  | shl => exact replaces_of_unit h hu fun I => BinaryOp.eval_shl_zero hw (ht I)
  | lshr => exact replaces_of_unit h hu fun I => BinaryOp.eval_lshr_zero hw (ht I)
  | ashr => exact replaces_of_unit h hu fun I => BinaryOp.eval_ashr_zero hw (ht I)
  | udiv => exact replaces_of_unit h hu fun I => BinaryOp.eval_udiv_one hw (ht I)
  | sdiv => exact replaces_of_unit h hu fun I => BinaryOp.eval_sdiv_one hw (ht I)
  | urem => exact replaces_of_absorbing h hu fun I => BinaryOp.eval_urem_one hw (ht I)
  | srem => exact replaces_of_absorbing h hu fun I => BinaryOp.eval_srem_one hw (ht I)
  | mul =>
    by_cases hc : c = 0
    · refine replaces_of_absorbing h (k := 0) ?_ fun I => BinaryOp.eval_mul_zero (ht I)
      simpa [trivial?, hc] using hu
    · rw [trivial?, if_neg hc] at hu
      exact replaces_of_unit h hu fun I => BinaryOp.eval_mul_one hw (ht I)
  | and =>
    by_cases hc : c = 0
    · refine replaces_of_absorbing h (k := 0) ?_ fun I => BinaryOp.eval_and_zero (ht I)
      simpa [trivial?, hc] using hu
    · rw [trivial?, if_neg hc, Option.ite_none_right_eq_some, Option.some.injEq] at hu
      obtain ⟨hm, rfl⟩ := hu
      rw [hmask hm] at h ⊢
      exact replaces_operand h fun I => BinaryOp.eval_and_mask (ht I)
  | or =>
    by_cases hc : c = 0
    · refine replaces_of_unit h (k := 0) ?_ fun I => BinaryOp.eval_or_zero (ht I)
      simpa [trivial?, hc] using hu
    · rw [trivial?, if_neg hc, Option.ite_none_right_eq_some, Option.some.injEq] at hu
      obtain ⟨hm, rfl⟩ := hu
      rw [hmask hm] at h ⊢
      exact
        { wellFormed := h.2.1
          width_eq := rfl
          denote_eq := fun I => (BinaryOp.eval_or_mask (ht I)).symm
          mentions_subset := List.nil_subset _ }
  | xor =>
    by_cases hc : c = 0
    · refine replaces_of_unit h (k := 0) ?_ fun I => BinaryOp.eval_xor_zero (ht I)
      simpa [trivial?, hc] using hu
    · rw [trivial?, if_neg hc, Option.ite_none_right_eq_some, Option.some.injEq] at hu
      obtain ⟨hm, rfl⟩ := hu
      rw [hmask hm] at h ⊢
      refine (mkUnary_replaces .not h.1).trans ⟨h.1, rfl, fun I => ?_, ?_⟩
      · exact (BinaryOp.eval_xor_mask (ht I)).symm
      · exact List.subset_append_left _ _

/-- The literals of a chain put together. -/
theorem replaces_chain {op : BinaryOp} (hop : op.isAssociative = true) {x : Term} {d dw : Nat}
    (h : (binary op (binary op x (lit d dw)) (lit c x.width)).WellFormed) :
    Replaces (binary op x (lit (op.eval d c x.width) x.width))
      (binary op (binary op x (lit d dw)) (lit c x.width)) where
  wellFormed := ⟨h.1.1, ⟨BinaryOp.eval_lt op d c x.width, h.1.1.valid⟩, rfl⟩
  width_eq := rfl
  denote_eq I := (BinaryOp.eval_assoc hop (x.denote I) d c x.width).symm
  mentions_subset := by
    intro n hn
    simpa [mentions] using hn

theorem mkBinaryLit_replaces {op : BinaryOp} {cw : Nat} (h : (binary op t (lit c cw)).WellFormed)
    (hw : t.width = w) : Replaces (mkBinaryLit op w t c cw) (binary op t (lit c cw)) := by
  fun_induction mkBinaryLit op w t c cw with
  | case1 w c cw v vw =>
    subst hw
    exact replaces_const h (fun _ => rfl) (BinaryOp.eval_lt op v c vw)
  | case2 w c cw op' x d dw u hu =>
    subst hw
    obtain rfl := h.2.2
    exact trivial?_replaces h hu
  | case3 w c cw op' x d dw _ hop ih =>
    obtain ⟨hop, rfl⟩ := hop
    subst hw
    obtain rfl := h.2.2
    have hchain := replaces_chain hop h
    exact (ih hchain.wellFormed rfl).trans hchain
  | case4 => exact Replaces.refl h
  | case5 w c cw t _ _ u hu =>
    subst hw
    obtain rfl := h.2.2
    exact trivial?_replaces h hu
  | case6 => exact Replaces.refl h

theorem mkLitBinary_replaces {op : BinaryOp} (h : (binary op (lit c w) t).WellFormed) :
    Replaces (mkLitBinary op c w t) (binary op (lit c w) t) := by
  obtain rfl : w = t.width := h.2.2
  have ht := fun I => denote_lt I h.2.1
  unfold mkLitBinary
  split
  · rename_i hc
    subst hc
    cases op with
    | sub =>
      refine (mkUnary_replaces .neg h.2.1).trans ⟨h.2.1, rfl, fun I => ?_, List.Subset.refl _⟩
      exact (BinaryOp.eval_zero_sub (ht I)).symm
    | shl => exact replaces_zero h fun I => BinaryOp.eval_zero_shl (ht I)
    | lshr => exact replaces_zero h fun I => BinaryOp.eval_zero_lshr (ht I)
    | ashr => exact replaces_zero h fun I => BinaryOp.eval_zero_ashr (ht I)
    | urem => exact replaces_zero h fun I => BinaryOp.eval_zero_urem (ht I)
    | _ => exact Replaces.refl h
  · exact Replaces.refl h

/-- Operands of a commutative operator exchanged. -/
theorem replaces_swap {op : BinaryOp} (hop : op.isCommutative = true)
    (h : (binary op l r).WellFormed) : Replaces (binary op r l) (binary op l r) where
  wellFormed := ⟨h.2.1, h.1, h.2.2.symm⟩
  width_eq := h.2.2.symm
  denote_eq I := by rw [denote, denote, BinaryOp.eval_comm hop, h.2.2]
  mentions_subset := by
    intro d hd
    simpa [mentions, or_comm] using hd

/-- A literal subtracted is its negation added. -/
theorem replaces_sub (h : (binary .sub t (lit c w)).WellFormed) :
    Replaces (binary .add t (lit (Word.negate c t.width) t.width)) (binary .sub t (lit c w)) where
  wellFormed := ⟨h.1, ⟨Word.negate_lt c _, h.1.valid⟩, rfl⟩
  width_eq := rfl
  denote_eq I := (BinaryOp.eval_sub (t.denote I) c t.width).symm
  mentions_subset := List.Subset.refl _

theorem mkBinary_replaces {op : BinaryOp} (h : (binary op l r).WellFormed) :
    Replaces (mkBinary op l r) (binary op l r) := by
  fun_cases mkBinary op l r with
  | case1 => exact replaces_const h (fun _ => rfl) (BinaryOp.eval_lt op _ _ _)
  | case2 =>
    have hswap := replaces_swap ‹_› h
    exact (mkBinaryLit_replaces hswap.wellFormed h.2.2.symm).trans hswap
  | case3 => exact mkLitBinary_replaces h
  | case4 =>
    have hsub := replaces_sub h
    exact (mkBinaryLit_replaces hsub.wellFormed rfl).trans hsub
  | case5 => exact mkBinaryLit_replaces h rfl
  | case6 => exact replaces_zero h fun I => BinaryOp.eval_xor_self (l.denote I) l.width
  | case7 => exact replaces_zero h fun I => BinaryOp.eval_sub_self (l.denote I) l.width
  | case8 => exact replaces_operand h fun I => BinaryOp.eval_or_self (denote_lt I h.1)
  | case9 => exact replaces_operand h fun I => BinaryOp.eval_and_self (denote_lt I h.1)
  | case10 | case11 => exact Replaces.refl h

/-! ### Comparisons -/

theorem replaces_ofBool {op : Comparison} {b : Bool}
    (hb : ∀ I, op.eval (l.denote I) (r.denote I) l.width = b) :
    Replaces (ofBool b) (compare op l r) where
  wellFormed := wellFormed_ofBool b
  width_eq := rfl
  denote_eq I := by rw [denote, hb, ofBool, denote]
  mentions_subset := List.nil_subset _

/-- A comparison of one bit with a literal is the bit or its negation. -/
theorem eval_bit {op : Comparison} (hop : op.isEquality = true) {a : Nat} (ha : a < 2)
    (hc : c < 2) :
    (op.eval a c 1).toNat = if (op == .eq) = (c == 1) then a else UnaryOp.not.eval a 1 := by
  obtain rfl | rfl : a = 0 ∨ a = 1 := by omega
  all_goals
    obtain rfl | rfl : c = 0 ∨ c = 1 := by omega
    all_goals cases op <;> first | contradiction | decide

/-- The literal of a comparison is a word of the other operand's width. -/
theorem WellFormed.lit_lt {op : Comparison} (h : (compare op t (lit c w)).WellFormed) :
    c < 2 ^ t.width := by
  obtain ⟨-, ⟨hc, -⟩, hw⟩ := h
  rw [hw]
  exact hc

theorem compareLit_replaces {op : Comparison} (h : (compare op t (lit c w)).WellFormed) :
    Replaces (compareLit op t c w) (compare op t (lit c w)) := by
  have hbit : op.isEquality = true → t.width = 1 → ∀ I, (compare op t (lit c w)).denote I =
      if (op == .eq) = (c == 1) then t.denote I else UnaryOp.not.eval (t.denote I) 1 := by
    intro hop hw I
    have hc := h.lit_lt
    have ht := denote_lt I h.1
    rw [hw] at hc ht
    rw [denote, denote, hw, eval_bit hop ht hc]
  fun_cases compareLit op t c w with
  | case1 hop hpos =>
    refine ⟨h.1, hop.2, fun I => ?_, List.subset_append_left _ _⟩
    rw [hbit hop.1 hop.2, if_pos hpos]
  | case2 hop hneg =>
    refine (mkUnary_replaces .not h.1).trans
      ⟨h.1, hop.2, fun I => ?_, List.subset_append_left _ _⟩
    rw [hbit hop.1 hop.2, if_neg hneg, denote, hop.2]
  | case3 => exact Replaces.refl h

/-- An equality with a literal solved for what stands under an operation with an inverse. -/
theorem replaces_solved {op : Comparison} {x : Term} {e : Nat} (hop : op.isEquality = true)
    (h : (compare op t (lit c w)).WellFormed) (hx : x.WellFormed) (hw : t.width = x.width)
    (he : e < 2 ^ x.width) (hm : x.mentions ⊆ t.mentions)
    (hsolve : ∀ I, t.denote I = c ↔ x.denote I = e) :
    Replaces (compare op x (lit e x.width)) (compare op t (lit c w)) where
  wellFormed := ⟨hx, ⟨he, hx.valid⟩, rfl⟩
  width_eq := rfl
  denote_eq I := by
    have hc := h.lit_lt
    have ht := denote_lt I h.1
    rw [hw] at hc ht
    have heval := Comparison.eval_congr_of_isEquality hop (denote_lt I hx) he ht hc (hsolve I).symm
    simp only [denote, hw, heval]
  mentions_subset := Replaces.append_subset hm (List.Subset.refl _)

theorem mkCompareLit_replaces {op : Comparison} (h : (compare op t (lit c w)).WellFormed) :
    Replaces (mkCompareLit op t c w) (compare op t (lit c w)) := by
  fun_induction mkCompareLit op t c w with
  | case1 => exact replaces_ofBool fun _ => rfl
  | case2 c w x d dw hop ih =>
    have hx := h.1.1
    have hsolved := replaces_solved hop.1 h hx rfl (BinaryOp.eval_lt .sub c d x.width)
      (List.subset_append_left _ _) fun I => BinaryOp.eval_add_eq_iff (denote_lt I hx) h.lit_lt
    exact (ih hsolved.wellFormed).trans hsolved
  | case4 c w x d dw hop ih =>
    have hx := h.1.1
    have hsolved := replaces_solved hop.1 h hx rfl (BinaryOp.eval_lt .xor c d x.width)
      (List.subset_append_left _ _) fun I => BinaryOp.eval_xor_eq_iff (denote_lt I hx) h.lit_lt
    exact (ih hsolved.wellFormed).trans hsolved
  | case6 c w u x hop ih =>
    have hx : x.WellFormed := h.1
    have hsolved := replaces_solved hop.1 h hx rfl (UnaryOp.eval_lt u c x.width)
      (List.Subset.refl _) fun I => UnaryOp.eval_eq_iff u (denote_lt I hx) h.lit_lt
    exact (ih hsolved.wellFormed).trans hsolved
  | case3 | case5 | case7 | case8 => exact compareLit_replaces h

/-- Operands exchanged with the comparison turned round. -/
theorem replaces_compare_swap {op : Comparison} (h : (compare op l r).WellFormed) :
    Replaces (compare op.swap r l) (compare op l r) where
  wellFormed := ⟨h.2.1, h.1, h.2.2.symm⟩
  width_eq := rfl
  denote_eq I := by simp only [denote, Comparison.eval_swap, h.2.2]
  mentions_subset := by
    intro d hd
    simpa [mentions, or_comm] using hd

theorem mkCompare_replaces {op : Comparison} (h : (compare op l r).WellFormed) :
    Replaces (mkCompare op l r) (compare op l r) := by
  fun_cases mkCompare op l r with
  | case1 => exact replaces_ofBool fun _ => rfl
  | case2 =>
    have hswap := replaces_compare_swap h
    exact (mkCompareLit_replaces hswap.wellFormed).trans hswap
  | case3 => exact mkCompareLit_replaces h
  | case4 => exact replaces_ofBool fun I => Comparison.eval_self op (l.denote I) l.width
  | case5 => exact Replaces.refl h

end Term

end SymWord
