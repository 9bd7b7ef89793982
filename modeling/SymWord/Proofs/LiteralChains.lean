import SymWord.Proofs.OppositeComparisons

/-!
# Chains of literals

A term in normal form carries at most one literal of an associative operator at its top, as in
`x + 5`. The rules take this literal off, put it together with the next one and attach the result
to `x` again (`mkBinaryLit_attach`). So it does not matter in which order literals are put together,
and each of `+`, `*`, `&` and `|` is associative on literals as trees. The literals that make such
an operator trivial do no harm: they are its unit, after which the chain starts anew, or absorb
everything, after which the chain is that literal (`trivial?_cases`).
-/

namespace SymWord

theorem BinaryOp.ne_sub_of_isCommutative {op : BinaryOp} (h : op.isCommutative = true) :
    op ≠ .sub := by
  rintro rfl
  cases h

namespace Term

variable {t u x : Term} {op : BinaryOp} {c cw d k w : Nat}

/-- Whether the term is the operator over a literal on the right. -/
def isChain (op : BinaryOp) : Term → Bool
  | binary op' _ (lit _ _) => op' == op
  | _ => false

/-- The operator over a literal that is not put together with another one. -/
def attach (op : BinaryOp) (w : Nat) (t : Term) (c : Nat) : Term :=
  match trivial? op w t c w with
  | some u => u
  | none => binary op t (lit c w)

theorem attach_of_some (h : trivial? op w t c w = some u) : attach op w t c = u := by
  rw [attach, h]

theorem attach_of_none (h : trivial? op w t c w = none) :
    attach op w t c = binary op t (lit c w) := by
  rw [attach, h]

/-! ## Literals on either side -/

theorem mkBinary_lit (hop : op ≠ .sub) (hw : t.width = w) :
    mkBinary op t (lit c cw) = mkBinaryLit op w t c cw := by
  subst hw
  cases t with
  | lit => rfl
  | _ => exact if_neg hop

theorem mkBinary_lit_left (hop : op.isCommutative = true) (hw : t.width = w) :
    mkBinary op (lit c w) t = mkBinary op t (lit c w) := by
  subst hw
  rw [mkBinary_lit (BinaryOp.ne_sub_of_isCommutative hop) rfl]
  cases t with
  | lit v w => rw [mkBinary, mkBinaryLit, BinaryOp.eval_comm hop, width]
  | _ => exact if_pos hop

theorem mkBinary_sub_lit (hw : t.width = w) :
    mkBinary .sub t (lit c w) = mkBinary .add t (lit (Word.negate c w) w) := by
  subst hw
  rw [mkBinary_lit (by decide : BinaryOp.add ≠ .sub) rfl]
  cases t with
  | lit v w => rw [mkBinary, mkBinaryLit, BinaryOp.eval_sub, width]
  | _ => simp only [mkBinary, if_true]

theorem mkBinaryLit_of_some (hlit : t.isLit = false) (h : trivial? op w t c cw = some u) :
    mkBinaryLit op w t c cw = u := by
  fun_cases mkBinaryLit op w t c cw with
  | case1 => cases hlit
  | case2 op' x d dw u' hu | case5 _ _ _ u' hu => exact Option.some.inj (hu.symm.trans h)
  | case3 op' x d dw hnone | case4 op' x d dw hnone | case6 _ _ _ hnone =>
    rw [h] at hnone
    cases hnone

/-! ## Chains in normal form -/

theorem ne_binary_self {r : Term} : t ≠ binary op t r := by
  intro h
  have hdepth := congrArg depth h
  rw [depth] at hdepth
  omega

theorem mkUnary_ne_binary {op' : UnaryOp} {r : Term} : mkUnary op' t ≠ binary op t r := by
  fun_cases mkUnary op' t with
  | case2 x =>
    intro h
    have hdepth := congrArg depth h
    simp only [depth] at hdepth
    omega
  | _ => rintro ⟨⟩

theorem trivial?_ne {r : Term} : trivial? op w t c cw ≠ some (binary op t r) := by
  fun_cases trivial? op w t c cw <;>
    simp only [zero, ne_eq, Option.some.injEq, reduceCtorEq, not_false_eq_true, ne_binary_self,
      mkUnary_ne_binary]

theorem depth_mkUnary_le (op : UnaryOp) (t : Term) : (mkUnary op t).depth ≤ 1 + t.depth := by
  fun_cases mkUnary op t <;> simp only [const, depth] <;> omega

theorem depth_trivial?_le (h : trivial? op w t c cw = some u) : u.depth ≤ 1 + t.depth := by
  have hnot := depth_mkUnary_le .not t
  revert h
  fun_cases trivial? op w t c cw <;> rintro ⟨⟩ <;>
    first | exact hnot | exact Nat.le_add_left _ _

theorem depth_mkBinaryLit_le (op : BinaryOp) (w : Nat) (t : Term) (c cw : Nat) :
    (mkBinaryLit op w t c cw).depth ≤ 1 + t.depth := by
  fun_induction mkBinaryLit op w t c cw with
  | case1 => simp [const, depth]
  | case2 w c cw op' x d dw u hu => exact depth_trivial?_le hu
  | case3 w c cw op' x d dw _ _ ih =>
    simp only [depth]
    omega
  | case5 w c cw t _ _ u hu => exact depth_trivial?_le hu
  | case4 | case6 => simp [depth]

/-- A term of width `w` that is no literal and carries no literal of the operator. -/
structure Bare (op : BinaryOp) (w : Nat) (t : Term) : Prop where
  not_lit : t.isLit = false
  not_chain : t.isChain op = false
  width_eq : t.width = w

theorem Bare.mkBinaryLit_eq (h : Bare op w t) : mkBinaryLit op w t c w = attach op w t c := by
  fun_cases mkBinaryLit op w t c w with
  | case1 => cases h.not_lit
  | case3 op' x d dw hnone hassoc =>
    have hchain := h.not_chain
    simp [isChain, hassoc.2] at hchain
  | case2 op' x d dw u hu => rw [attach_of_some hu]
  | case4 op' x d dw hnone hassoc => rw [attach_of_none hnone]
  | case5 _ _ _ u hu => rw [attach_of_some hu]
  | case6 _ _ _ hnone => rw [attach_of_none hnone]

/-- The literal of a chain in normal form is not trivial, and the only one of the chain. -/
theorem Normal.of_chain (hop : op.isAssociative = true) (hn : (binary op x (lit d w)).Normal) :
    Bare op x.width x ∧ trivial? op x.width x d w = none := by
  obtain ⟨-, -, hplain⟩ := hn
  rw [mkBinary_lit (BinaryOp.ne_sub_of_isCommutative hop) rfl] at hplain
  revert hplain
  fun_cases mkBinaryLit op x.width x d w with
  | case1 => rintro ⟨⟩
  | case2 op' y e ew u hu =>
    rintro rfl
    exact absurd hu trivial?_ne
  | case3 op' y e ew hnone hassoc =>
    intro hplain
    have hle := depth_mkBinaryLit_le op y.width y (op.eval e d (binary op' y (lit e ew)).width)
      (binary op' y (lit e ew)).width
    rw [hplain] at hle
    simp only [depth] at hle
    omega
  | case4 op' y e ew hnone hassoc =>
    refine fun _ => ⟨⟨rfl, ?_, rfl⟩, hnone⟩
    simpa [isChain, hop] using hassoc
  | case5 _ hlit hbin u hu =>
    rintro rfl
    exact absurd hu trivial?_ne
  | case6 _ hlit hbin hnone =>
    refine fun _ => ⟨⟨isLit_eq_false hlit, ?_, rfl⟩, hnone⟩
    fun_cases isChain op x with
    | case1 op' y e ew => exact absurd rfl (hbin op' y e ew)
    | case2 => rfl

/-- What a term of width `w` in normal form is to an operator: a literal, a bare term, or a bare
term with one literal attached. -/
inductive Carries (op : BinaryOp) (w : Nat) : Term → Prop where
  | lit {v : Nat} (h : v < 2 ^ w) : Carries op w (lit v w)
  | bare {t : Term} (h : Bare op w t) : Carries op w t
  | chain {x : Term} {d : Nat} (h : Bare op w x) (hd : d < 2 ^ w)
      (hplain : trivial? op w x d w = none) : Carries op w (binary op x (lit d w))

theorem carries (hop : op.isAssociative = true) (h : t.WellFormed) (hn : t.Normal)
    (hw : t.width = w) : Carries op w t := by
  subst hw
  by_cases hlit : t.isLit = true
  · obtain ⟨v, hv⟩ := eq_lit_of_isLit hlit
    rw [hv] at h ⊢
    exact .lit h.1
  by_cases hchain : t.isChain op = true
  · revert hchain
    fun_cases isChain op t with
    | case1 op' x d dw =>
      intro hchain
      obtain rfl := eq_of_beq hchain
      obtain ⟨hbare, hplain⟩ := hn.of_chain hop
      obtain rfl : x.width = dw := h.2.2
      exact .chain hbare h.2.1.1 hplain
    | case2 => rintro ⟨⟩
  · exact .bare ⟨by simpa using hlit, by simpa using hchain, rfl⟩

/-! ## Literals put together -/

/-- A literal that makes an associative operator trivial is a unit of it, or absorbs every word. Of
exclusive or this is not so. -/
theorem trivial?_cases (hop : op.isAssociative = true) (hxor : op ≠ .xor) (hw : 0 < w) (k : Nat) :
    ((∀ t, trivial? op w t k w = some t) ∧ ∀ c < 2 ^ w, op.eval c k w = c)
      ∨ ((∀ t, trivial? op w t k w = some (lit k w)) ∧ ∀ c < 2 ^ w, op.eval c k w = k)
      ∨ ∀ t, trivial? op w t k w = none := by
  have hmask := Word.isMask_iff k w
  cases op with
  | add =>
    by_cases hzero : k = 0
    · subst hzero
      exact .inl ⟨fun _ => rfl, fun c hc => BinaryOp.eval_add_zero hc⟩
    · exact .inr (.inr fun _ => if_neg hzero)
  | mul =>
    by_cases hzero : k = 0
    · subst hzero
      exact .inr (.inl ⟨fun _ => rfl, fun c hc => BinaryOp.eval_mul_zero hc⟩)
    by_cases hone : k = 1
    · subst hone
      exact .inl ⟨fun _ => rfl, fun c hc => BinaryOp.eval_mul_one hw hc⟩
    · exact .inr (.inr fun t => by rw [trivial?, if_neg hzero, if_neg hone])
  | and =>
    by_cases hzero : k = 0
    · subst hzero
      exact .inr (.inl ⟨fun _ => rfl, fun c hc => BinaryOp.eval_and_zero hc⟩)
    by_cases hones : Word.isMask k w = true
    · refine .inl ⟨fun t => by rw [trivial?, if_neg hzero, if_pos hones], fun c hc => ?_⟩
      rw [hmask.1 hones, BinaryOp.eval_and_mask hc]
    · exact .inr (.inr fun t => by rw [trivial?, if_neg hzero, if_neg hones])
  | or =>
    by_cases hzero : k = 0
    · subst hzero
      exact .inl ⟨fun _ => rfl, fun c hc => BinaryOp.eval_or_zero hc⟩
    by_cases hones : Word.isMask k w = true
    · refine .inr (.inl ⟨fun t => by rw [trivial?, if_neg hzero, if_pos hones], fun c hc => ?_⟩)
      rw [hmask.1 hones, BinaryOp.eval_or_mask hc]
    · exact .inr (.inr fun t => by rw [trivial?, if_neg hzero, if_neg hones])
  | xor => exact absurd rfl hxor
  | _ => cases hop

theorem Bare.mkBinaryLit_attach (hop : op.isAssociative = true) (hxor : op ≠ .xor)
    (h : Bare op w t) (hpos : 0 < w) (hk : k < 2 ^ w) (hc : c < 2 ^ w) :
    mkBinaryLit op w (attach op w t k) c w = attach op w t (op.eval k c w) := by
  have hcomm := BinaryOp.eval_comm hop k c w
  rcases trivial?_cases hop hxor hpos k with ⟨htriv, heval⟩ | ⟨htriv, heval⟩ | htriv
  · rw [attach_of_some (htriv t), hcomm, heval c hc, h.mkBinaryLit_eq]
  · rw [attach_of_some (htriv t), mkBinaryLit, hcomm, heval c hc, attach_of_some (htriv t), const,
      Word.truncate_of_lt hk]
  · rw [attach_of_none (htriv t), mkBinaryLit]
    rcases trivial?_cases hop hxor hpos c with ⟨hc', heval⟩ | ⟨hc', heval⟩ | hc'
    · simp only [hc']
      rw [heval k hk, attach_of_none (htriv t)]
    · simp only [hc']
      rw [heval k hk, attach_of_some (hc' t)]
    · simp only [hc', hop, and_self, if_true, h.width_eq]
      exact h.mkBinaryLit_eq

theorem mkBinaryLit_lit_lit {v : Nat} (hop : op.isAssociative = true) :
    mkBinaryLit op w (mkBinaryLit op w (lit v w) c w) d w
      = mkBinaryLit op w (lit v w) (op.eval c d w) w := by
  simp only [mkBinaryLit, const, Word.truncate_of_lt (BinaryOp.eval_lt op _ _ w),
    BinaryOp.eval_assoc hop]

/-- Literals put on one after the other are put on together. -/
theorem mkBinaryLit_mkBinaryLit (hop : op.isAssociative = true) (hxor : op ≠ .xor)
    (h : t.WellFormed) (hn : t.Normal) (hw : t.width = w) (hc : c < 2 ^ w) (hd : d < 2 ^ w) :
    mkBinaryLit op w (mkBinaryLit op w t c w) d w = mkBinaryLit op w t (op.eval c d w) w := by
  have hpos : 0 < w := hw ▸ h.width_pos
  have heval := fun a b => BinaryOp.eval_lt op a b w
  cases carries hop h hn hw with
  | lit hv => exact mkBinaryLit_lit_lit hop
  | bare hbare =>
    rw [hbare.mkBinaryLit_eq, hbare.mkBinaryLit_attach hop hxor hpos hc hd, hbare.mkBinaryLit_eq]
  | chain hbare hk hplain =>
    rw [← attach_of_none hplain, hbare.mkBinaryLit_attach hop hxor hpos hk hc,
      hbare.mkBinaryLit_attach hop hxor hpos (heval _ _) hd,
      hbare.mkBinaryLit_attach hop hxor hpos hk (heval _ _), BinaryOp.eval_assoc hop]

/-- A literal that is a unit of the operator changes nothing. -/
theorem mkBinaryLit_of_unit (h : t.WellFormed) (hw : t.width = w)
    (htriv : ∀ u, trivial? op w u c w = some u) (heval : ∀ a < 2 ^ w, op.eval a c w = a) :
    mkBinaryLit op w t c w = t := by
  subst hw
  cases t with
  | lit v w =>
    have hv : op.eval v c w = v := heval v h.1
    rw [mkBinaryLit, width, hv, const, Word.truncate_of_lt h.1]
  | _ => exact mkBinaryLit_of_some rfl (htriv _)

theorem mkBinaryLit_add_zero (h : t.WellFormed) (hw : t.width = w) :
    mkBinaryLit .add w t 0 w = t :=
  mkBinaryLit_of_unit h hw (fun _ => rfl) fun _ ha => BinaryOp.eval_add_zero ha

theorem mkBinary_lit_replaces (h : t.WellFormed) (hw : t.width = w) (hc : c < 2 ^ w) :
    Replaces (mkBinary op t (lit c w)) (binary op t (lit c w)) :=
  mkBinary_replaces ⟨h, ⟨hc, hw ▸ h.valid⟩, hw⟩

theorem width_mkBinary_lit (h : t.WellFormed) (hw : t.width = w) (hc : c < 2 ^ w) :
    (mkBinary op t (lit c w)).width = w :=
  (mkBinary_lit_replaces h hw hc).width_eq.trans hw

theorem mkBinary_lit_lit : mkBinary op (lit c w) (lit d cw) = lit (op.eval c d w) w := by
  rw [mkBinary, const, Word.truncate_of_lt (BinaryOp.eval_lt op c d w)]

theorem mkBinary_mkBinary_lit (hop : op.isAssociative = true) (hxor : op ≠ .xor)
    (h : t.WellFormed) (hn : t.Normal) (hw : t.width = w) (hc : c < 2 ^ w) (hd : d < 2 ^ w) :
    mkBinary op (mkBinary op t (lit c w)) (lit d w) = mkBinary op t (lit (op.eval c d w) w) := by
  have hsub : op ≠ .sub := BinaryOp.ne_sub_of_isCommutative hop
  rw [mkBinary_lit hsub (width_mkBinary_lit h hw hc), mkBinary_lit hsub hw, mkBinary_lit hsub hw,
    mkBinaryLit_mkBinaryLit hop hxor h hn hw hc hd]

/-- A literal that is added can be taken off again. -/
theorem mkBinary_add_negate (h : t.WellFormed) (hn : t.Normal) (hw : t.width = w) (hc : c < 2 ^ w)
    (hd : d < 2 ^ w) (hzero : BinaryOp.add.eval c d w = 0) :
    mkBinary .add (mkBinary .add t (lit c w)) (lit d w) = t := by
  rw [mkBinary_mkBinary_lit rfl (by decide) h hn hw hc hd, hzero, mkBinary_lit (by decide) hw,
    mkBinaryLit_add_zero h hw]

end Term

namespace Value

open Term

variable {v c d : Value} {k l w : Nat}

/-- A concrete value is a literal. -/
theorem Canonical.eq_lit (h : c.Canonical) (hk : c.toNat? = some k) (hw : c.width = w) :
    k < 2 ^ w ∧ c = ⟨.lit k w⟩ := by
  obtain rfl : c = ⟨.lit k w⟩ := congrArg Value.mk (hw ▸ term_of_toNat? hk)
  exact ⟨h.wellFormed.1, rfl⟩

theorem Canonical.exists_lit (h : c.Canonical) (hlit : c.isConcrete = true) (hw : c.width = w) :
    ∃ k < 2 ^ w, c = ⟨.lit k w⟩ := by
  obtain ⟨k, hk⟩ := Option.isSome_iff_exists.1 hlit
  exact ⟨k, h.eq_lit hk hw⟩

theorem binary_lit {op : BinaryOp} (hw : v.width = w) :
    v.binary op ⟨.lit k w⟩ = .ok ⟨mkBinary op v.term (.lit k w)⟩ := binary_eq hw

theorem lit_binary {op : BinaryOp} (hw : v.width = w) :
    (⟨.lit k w⟩ : Value).binary op v = .ok ⟨mkBinary op (.lit k w) v.term⟩ := binary_eq hw.symm

theorem lit_binary_lit {op : BinaryOp} :
    (⟨.lit k w⟩ : Value).binary op ⟨.lit l w⟩ = .ok ⟨.lit (op.eval k l w) w⟩ := by
  rw [binary_eq (x := ⟨.lit k w⟩) (y := ⟨.lit l w⟩) rfl, mkBinary_lit_lit]

/-- An operator over a value and a literal, and another one over the result. -/
theorem binary_bind_binary {op op' : BinaryOp} (hv : v.Canonical) (hw : v.width = w)
    (hk : k < 2 ^ w) : v.binary op ⟨.lit k w⟩ >>= (·.binary op' ⟨.lit l w⟩)
      = .ok ⟨mkBinary op' (mkBinary op v.term (.lit k w)) (.lit l w)⟩ := by
  rw [binary_lit hw]
  exact binary_lit (width_mkBinary_lit hv.wellFormed hw hk)

/-- With `+`, `*`, `&` and `|` a value takes literals one by one as it takes what they come to
together, and from either side. A literal is subtracted by adding its negation, so that adding and
subtracting one cancel. -/
theorem binary_chain_eq (hv : v.Canonical) (hc : c.Canonical) (hd : d.Canonical)
    (hclit : c.isConcrete = true) (hdlit : d.isConcrete = true) (hcw : c.width = v.width)
    (hdw : d.width = v.width) :
    (∀ op ∈ [BinaryOp.add, .mul, .and, .or],
      (∃ u, v.binary op c >>= (·.binary op d) = .ok u ∧ c.binary op d >>= v.binary op = .ok u)
        ∧ ∃ u, c.binary op v = .ok u ∧ v.binary op c = .ok u)
      ∧ (∃ u, v.binary .sub c = .ok u ∧ v.binary .add c.negate = .ok u)
      ∧ v.binary .add c >>= (·.binary .sub c) = .ok v
      ∧ v.binary .sub c >>= (·.binary .add c) = .ok v := by
  obtain ⟨w, hw⟩ : ∃ w, v.term.width = w := ⟨_, rfl⟩
  obtain ⟨k, hk, rfl⟩ := hc.exists_lit hclit (hcw.trans hw)
  obtain ⟨l, hl, rfl⟩ := hd.exists_lit hdlit (hdw.trans hw)
  have hwf := hv.wellFormed
  have hneg := Word.negate_lt k w
  have hzero : BinaryOp.add.eval k (Word.negate k w) w = 0 := by
    rw [← BinaryOp.eval_sub, BinaryOp.eval_sub_self]
  refine ⟨fun op hop => ⟨⟨_, binary_bind_binary hv hw hk, ?_⟩, _, lit_binary hw, ?_⟩,
    ⟨_, binary_lit hw, ?_⟩, ?_, ?_⟩
  · have hassoc : op.isAssociative = true ∧ op ≠ .xor := by
      revert op
      decide
    rw [lit_binary_lit, mkBinary_mkBinary_lit hassoc.1 hassoc.2 hwf hv.normal hw hk hl]
    exact binary_lit hw
  · have hcomm : op.isCommutative = true := by
      revert op
      decide
    rw [binary_lit hw, mkBinary_lit_left hcomm hw]
  · have hnegate : (⟨.lit k w⟩ : Value).negate = ⟨.lit (Word.negate k w) w⟩ :=
      congrArg (fun n => Value.mk (.lit n w)) (Word.truncate_of_lt hneg)
    rw [hnegate, binary_lit hw, mkBinary_sub_lit hw]
  · rw [binary_bind_binary hv hw hk, mkBinary_sub_lit (width_mkBinary_lit hwf hw hk),
      mkBinary_add_negate hwf hv.normal hw hk hneg hzero]
  · rw [binary_bind_binary hv hw hk, mkBinary_sub_lit hw,
      mkBinary_add_negate hwf hv.normal hw hneg hk (by rw [BinaryOp.eval_comm rfl, hzero])]

/-- Two factors that come to zero, and literals after which a sum starts anew. -/
theorem binary_chain_eq_wrapped :
    let v : Value := ⟨.binary .mul (.sym "x" 8) (.lit 0x10 8)⟩
    let u : Value := ⟨.binary .add (.sym "x" 8) (.lit 0xFF 8)⟩
    (∃ r, v.binary .mul ⟨.lit 0x10 8⟩ >>= (·.binary .mul ⟨.lit 3 8⟩) = .ok r
      ∧ (⟨.lit 0x10 8⟩ : Value).binary .mul ⟨.lit 3 8⟩ >>= v.binary .mul = .ok r)
      ∧ u.binary .add ⟨.lit 1 8⟩ >>= (·.binary .sub ⟨.lit 1 8⟩) = .ok u := by
  intro v u
  have hv := binary_chain_eq (v := v) (c := ⟨.lit 0x10 8⟩) (d := ⟨.lit 3 8⟩) (by decide)
    (by decide) (by decide) rfl rfl rfl rfl
  have hu := binary_chain_eq (v := u) (c := ⟨.lit 1 8⟩) (d := ⟨.lit 1 8⟩) (by decide)
    (by decide) (by decide) rfl rfl rfl rfl
  exact ⟨(hv.1 .mul (by decide)).1, hu.2.2.1⟩

end Value

end SymWord
