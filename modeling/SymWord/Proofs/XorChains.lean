import Mathlib.Data.Nat.Bitwise
import SymWord.Proofs.LiteralChains

/-!
# Chains of exclusive or

Exclusive or with all ones is a complement, and the rules make it one. A complement carries no
literal of `^`, so a chain that comes by all ones does not go on as it began: `(x ^ c) ^ d` and
`x ^ (c ^ d)` mean the same and can be different trees.

Where no step meets all ones, literals are put together as those of other operators are
(`Bare.mkBinaryLit_xor_attach`). A step that makes a complement leaves a new bare term, and what is
put on next stays on top of it (`mkBinaryLit_xor_not`). From this follows exactly when two steps
come to one (`mkBinaryLit_xor_xor_eq_iff`).
-/

namespace SymWord

namespace Term

variable {t u x : Term} {c d j k w : Nat}

/-- The literal of `^` that a term carries, zero if it carries none. -/
def xorLit : Term → Nat
  | binary .xor _ (lit d _) => d
  | _ => 0

/-- Whether `(t ^ c) ^ d` comes to `t ^ (c ^ d)`, for a term that carries the literal `k`, where `m`
has every bit set. -/
def mergesXor (m k c d : Nat) : Bool :=
  c == 0 || d == 0 ||
    -- a complement that comes first is undone by another one and by nothing else
    if c = m then d == m
    -- one that comes last has to meet what carries no literal
    else if d = m then k ^^^ c == 0 || k ^^^ c == m
    else k ^^^ c != m && (k == 0 || c ^^^ d != m)

/-! ## One step -/

theorem mask_ne_zero (hw : 0 < w) : Word.mask w ≠ 0 := by
  have hlt := Nat.one_lt_two_pow (Nat.ne_of_gt hw)
  rw [Word.mask_eq]
  omega

theorem eval_xor (hc : c < 2 ^ w) (hd : d < 2 ^ w) : BinaryOp.xor.eval c d w = c ^^^ d :=
  BinaryOp.eval_of_lt .xor hc hd

theorem trivial?_xor_mask (hw : 0 < w) :
    trivial? .xor w t (Word.mask w) w = some (mkUnary .not t) := by
  rw [trivial?, if_neg (mask_ne_zero hw), if_pos ((Word.isMask_iff _ w).2 rfl)]

theorem trivial?_xor (hzero : c ≠ 0) (hmask : c ≠ Word.mask w) :
    trivial? .xor w t c w = none := by
  rw [trivial?, if_neg hzero, if_neg fun h => hmask ((Word.isMask_iff c w).1 h)]

theorem attach_xor_zero : attach .xor w t 0 = t := rfl

theorem attach_xor_mask (hw : 0 < w) : attach .xor w t (Word.mask w) = mkUnary .not t :=
  attach_of_some (trivial?_xor_mask hw)

theorem attach_xor (hzero : c ≠ 0) (hmask : c ≠ Word.mask w) :
    attach .xor w t c = binary .xor t (lit c w) := attach_of_none (trivial?_xor hzero hmask)

theorem mkBinaryLit_xor_zero (h : t.WellFormed) (hw : t.width = w) :
    mkBinaryLit .xor w t 0 w = t :=
  mkBinaryLit_of_unit h hw (fun _ => rfl) fun _ ha => BinaryOp.eval_xor_zero ha

theorem mkBinaryLit_xor_mask (h : t.WellFormed) (hw : t.width = w) :
    mkBinaryLit .xor w t (Word.mask w) w = mkUnary .not t := by
  subst hw
  cases t with
  | lit v w => rw [mkBinaryLit, width, BinaryOp.eval_xor_mask h.1, mkUnary]
  | _ => exact mkBinaryLit_of_some rfl (trivial?_xor_mask h.width_pos)

/-- Away from all ones the literal that a term carries and the next one are put together. -/
theorem Bare.mkBinaryLit_xor_attach (h : Bare .xor w x) (hk : k < 2 ^ w) (hc : c < 2 ^ w)
    (hkm : k ≠ Word.mask w) (hcm : c ≠ Word.mask w) :
    mkBinaryLit .xor w (attach .xor w x k) c w = attach .xor w x (k ^^^ c) := by
  by_cases hk0 : k = 0
  · subst hk0
    rw [attach_xor_zero, Nat.zero_xor, h.mkBinaryLit_eq]
  rw [attach_xor hk0 hkm]
  by_cases hc0 : c = 0
  · subst hc0
    rw [mkBinaryLit_of_some rfl rfl, Nat.xor_zero, attach_xor hk0 hkm]
  · rw [mkBinaryLit, trivial?_xor hc0 hcm]
    simp only [BinaryOp.isAssociative, BinaryOp.isCommutative, and_self, if_true, h.width_eq,
      eval_xor hk hc]
    exact h.mkBinaryLit_eq

/-- The term is `x` with the literal `k` of `^` attached, which is not all ones. It is `x` itself
where `k` is zero. -/
structure XorOf (w : Nat) (x : Term) (k : Nat) (t : Term) : Prop where
  bare : Bare .xor w x
  wellFormed : x.WellFormed
  normal : x.Normal
  lt : k < 2 ^ w
  ne_mask : k ≠ Word.mask w
  eq_attach : t = attach .xor w x k

theorem exists_xorOf (h : t.WellFormed) (hn : t.Normal) (hw : t.width = w)
    (hlit : t.isLit = false) : ∃ x, XorOf w x t.xorLit t := by
  have hpos : 0 < w := hw ▸ h.width_pos
  have hcarries : Carries .xor w t := carries rfl h hn hw
  cases hcarries with
  | lit => cases hlit
  | bare hbare =>
    have hzero : t.xorLit = 0 := by
      have hchain := hbare.not_chain
      fun_cases xorLit t with
      | case1 x d dw => cases hchain
      | case2 => rfl
    rw [hzero]
    exact ⟨t, hbare, h, hn, Nat.two_pow_pos w, (mask_ne_zero hpos).symm, rfl⟩
  | @chain x d hbare hd hplain =>
    refine ⟨x, hbare, h.1, hn.1, hd, ?_, (attach_of_none hplain).symm⟩
    rintro hmask
    rw [show d = Word.mask w from hmask, trivial?_xor_mask hpos] at hplain
    cases hplain

theorem XorOf.mkBinaryLit_eq (h : XorOf w x k t) (hc : c < 2 ^ w) (hcm : c ≠ Word.mask w) :
    mkBinaryLit .xor w t c w = attach .xor w x (k ^^^ c) := by
  rw [h.eq_attach, h.bare.mkBinaryLit_xor_attach h.lt hc h.ne_mask hcm]

/-! ## After a complement -/

/-- A complement is a bare term, so what is put on next stays on top of it. The one case apart is a
complement that has undone another one. -/
theorem mkBinaryLit_xor_not (hw : t.width = w) (hlit : t.isLit = false) (hd : d < 2 ^ w)
    (hd0 : d ≠ 0) (hdm : d ≠ Word.mask w) :
    mkBinaryLit .xor w (mkUnary .not t) d w = binary .xor (unary .not t) (lit d w)
      ∨ ∃ y, t = unary .not y ∧ mkUnary .not t = y := by
  have hbare : Bare .xor w (unary .not t) := ⟨rfl, rfl, hw⟩
  have hplain : mkBinaryLit .xor w (unary .not t) d w = binary .xor (unary .not t) (lit d w) := by
    rw [hbare.mkBinaryLit_eq, attach_xor hd0 hdm]
  fun_cases mkUnary .not t with
  | case1 => cases hlit
  | case2 y => exact .inr ⟨y, rfl, rfl⟩
  | case4 cmp l r =>
    -- a comparison is one bit wide, and has no other literals than these two
    obtain rfl : 1 = w := hw
    have : Word.mask 1 = 1 := by decide
    omega
  | case3 | case5 | case6 => exact .inl hplain

theorem unary_ne_self {op : UnaryOp} : unary op t ≠ t := by
  intro h
  have hdepth := congrArg depth h
  rw [depth] at hdepth
  omega

theorem Bare.mkBinaryLit_xor_not_ne (h : Bare .xor w x) (hd : d < 2 ^ w) (hd0 : d ≠ 0)
    (hdm : d ≠ Word.mask w) (c : Nat) :
    mkBinaryLit .xor w (mkUnary .not x) d w ≠ binary .xor x (lit c w)
      ∧ mkBinaryLit .xor w (mkUnary .not x) d w ≠ unary .not (binary .xor x (lit c w)) := by
  rcases mkBinaryLit_xor_not h.width_eq h.not_lit hd hd0 hdm with hplain | ⟨y, rfl, hy⟩
  · rw [hplain]
    exact ⟨fun heq => unary_ne_self (binary.inj heq).2.1, by rintro ⟨⟩⟩
  · -- what is left under the two complements is not deep enough
    have hle := depth_mkBinaryLit_le .xor w y d w
    rw [hy]
    refine ⟨fun heq => ?_, fun heq => ?_⟩ <;>
    · rw [heq] at hle
      simp only [depth] at hle
      omega

/-! ## Two steps -/

theorem xor_ne_of_ne {m : Nat} (hc0 : c ≠ 0) (hcm : c ≠ m) : c ^^^ m ≠ 0 ∧ c ^^^ m ≠ m := by
  refine ⟨Nat.xor_ne_zero_iff.2 hcm, fun h => hc0 ?_⟩
  rwa [← Nat.xor_left_inj (z := m), Nat.zero_xor]

/-- A complement stays with a term that carries no literal, and undoes one that is there. -/
theorem not_attach_xor_eq_iff (hw : 0 < w) (h : x.WellFormed) (hn : x.Normal) :
    mkUnary .not (attach .xor w x j) = attach .xor w x (j ^^^ Word.mask w)
      ↔ j = 0 ∨ j = Word.mask w := by
  by_cases hj0 : j = 0
  · subst hj0
    simp [attach_xor_zero, attach_xor_mask hw]
  by_cases hjm : j = Word.mask w
  · subst hjm
    simp [attach_xor_mask hw, attach_xor_zero, mkUnary_mkUnary h hn]
  · obtain ⟨hne0, hne⟩ := xor_ne_of_ne hj0 hjm
    simp [attach_xor hj0 hjm, attach_xor hne0 hne, mkUnary, hj0, hjm]

namespace XorOf

theorem width_pos (h : XorOf w x k t) : 0 < w := h.bare.width_eq ▸ h.wellFormed.width_pos

/-- The complement comes first. -/
theorem not_first_eq_iff (h : XorOf w x k t) (ht : t.WellFormed) (hn : t.Normal)
    (hw : t.width = w) (hd : d < 2 ^ w) (hd0 : d ≠ 0) :
    mkBinaryLit .xor w (mkUnary .not t) d w = mkBinaryLit .xor w t (d ^^^ Word.mask w) w
      ↔ d = Word.mask w := by
  constructor
  · intro heq
    by_contra hdm
    obtain ⟨hne0, hne⟩ := xor_ne_of_ne hd0 hdm
    rw [h.mkBinaryLit_eq (Nat.xor_lt_two_pow hd (Word.mask_lt w)) hne] at heq
    by_cases hk0 : k = 0
    · have htx : t = x := by rw [h.eq_attach, hk0, attach_xor_zero]
      rw [hk0, Nat.zero_xor, attach_xor hne0 hne, htx] at heq
      exact (h.bare.mkBinaryLit_xor_not_ne hd hd0 hdm _).1 heq
    · -- a chain under a complement under a literal is deeper than any chain over its operand
      have htx : t = binary .xor x (lit k w) := by rw [h.eq_attach, attach_xor hk0 h.ne_mask]
      have hle := depth_mkBinaryLit_le .xor w x (k ^^^ (d ^^^ Word.mask w)) w
      rw [h.bare.mkBinaryLit_eq, ← heq] at hle
      rcases mkBinaryLit_xor_not hw (by rw [htx]; rfl) hd hd0 hdm with hplain | ⟨y, hy, -⟩
      · rw [hplain, htx] at hle
        simp only [depth] at hle
        omega
      · rw [htx] at hy
        cases hy
  · rintro rfl
    have hnot := mkUnary_replaces .not ht
    rw [Nat.xor_self, mkBinaryLit_xor_zero ht hw,
      mkBinaryLit_xor_mask hnot.wellFormed (hnot.width_eq.trans hw), mkUnary_mkUnary ht hn]

/-- The complement comes last. -/
theorem not_last_eq_iff (h : XorOf w x k t) (hc : c < 2 ^ w) (hc0 : c ≠ 0)
    (hcm : c ≠ Word.mask w) :
    mkUnary .not (mkBinaryLit .xor w t c w) = mkBinaryLit .xor w t (c ^^^ Word.mask w) w
      ↔ k ^^^ c = 0 ∨ k ^^^ c = Word.mask w := by
  have hlt : c ^^^ Word.mask w < 2 ^ w := Nat.xor_lt_two_pow hc (Word.mask_lt w)
  rw [h.mkBinaryLit_eq hc hcm, h.mkBinaryLit_eq hlt (xor_ne_of_ne hc0 hcm).2, ← Nat.xor_assoc,
    not_attach_xor_eq_iff h.width_pos h.wellFormed h.normal]

/-- Neither literal is all ones. -/
theorem plain_eq_iff (h : XorOf w x k t) (ht : t.WellFormed) (hw : t.width = w) (hc : c < 2 ^ w)
    (hcm : c ≠ Word.mask w) (hd : d < 2 ^ w) (hd0 : d ≠ 0) (hdm : d ≠ Word.mask w) :
    mkBinaryLit .xor w (mkBinaryLit .xor w t c w) d w = mkBinaryLit .xor w t (c ^^^ d) w
      ↔ k ^^^ c ≠ Word.mask w ∧ (k = 0 ∨ c ^^^ d ≠ Word.mask w) := by
  have hlt : c ^^^ d < 2 ^ w := Nat.xor_lt_two_pow hc hd
  rw [h.mkBinaryLit_eq hc hcm]
  by_cases hkc : k ^^^ c = Word.mask w
  · -- the first step makes a complement, and the second one leaves it there
    refine iff_of_false ?_ fun hand => hand.1 hkc
    have hnot := h.bare.mkBinaryLit_xor_not_ne hd hd0 hdm
    rw [hkc, attach_xor_mask h.width_pos]
    by_cases hcd : c ^^^ d = Word.mask w
    · have hk0 : k ≠ 0 := by
        rintro rfl
        exact hcm (by rwa [Nat.zero_xor] at hkc)
      rw [hcd, mkBinaryLit_xor_mask ht hw, h.eq_attach, attach_xor hk0 h.ne_mask]
      exact (hnot k).2
    · obtain ⟨hne0, hne⟩ := xor_ne_of_ne hd0 hdm
      rw [h.mkBinaryLit_eq hlt hcd, ← Nat.xor_assoc, hkc, Nat.xor_comm, attach_xor hne0 hne]
      exact (hnot _).1
  · rw [h.bare.mkBinaryLit_xor_attach (Nat.xor_lt_two_pow h.lt hc) hd hkc hdm, Nat.xor_assoc]
    by_cases hcd : c ^^^ d = Word.mask w
    · rw [hcd, mkBinaryLit_xor_mask ht hw, h.eq_attach, eq_comm,
        not_attach_xor_eq_iff h.width_pos h.wellFormed h.normal]
      simp [hkc, h.ne_mask]
    · simp [h.mkBinaryLit_eq hlt hcd, hkc, hcd]

end XorOf

theorem mkBinaryLit_xor_xor_eq_iff (h : t.WellFormed) (hn : t.Normal) (hw : t.width = w)
    (hc : c < 2 ^ w) (hd : d < 2 ^ w) :
    mkBinaryLit .xor w (mkBinaryLit .xor w t c w) d w = mkBinaryLit .xor w t (c ^^^ d) w
      ↔ t.isLit = true ∨ mergesXor (Word.mask w) t.xorLit c d = true := by
  by_cases hlit : t.isLit = true
  · obtain ⟨v, hv⟩ := eq_lit_of_isLit hlit
    rw [hv, hw, ← eval_xor hc hd]
    exact iff_of_true (mkBinaryLit_lit_lit rfl) (.inl rfl)
  rw [Bool.not_eq_true] at hlit
  obtain ⟨x, hx⟩ := exists_xorOf h hn hw hlit
  have hput : (binary .xor t (lit c w)).WellFormed := ⟨h, ⟨hc, hw ▸ h.valid⟩, hw⟩
  have hrep := mkBinaryLit_replaces hput hw
  have hwidth := hrep.width_eq.trans hw
  by_cases hc0 : c = 0
  · subst hc0
    simp [mergesXor, mkBinaryLit_xor_zero h hw]
  by_cases hd0 : d = 0
  · subst hd0
    simp [mergesXor, mkBinaryLit_xor_zero hrep.wellFormed hwidth]
  by_cases hcm : c = Word.mask w
  · subst hcm
    rw [mkBinaryLit_xor_mask h hw, Nat.xor_comm, hx.not_first_eq_iff h hn hw hd hd0]
    simp [mergesXor, hlit, hc0, hd0]
  by_cases hdm : d = Word.mask w
  · subst hdm
    rw [mkBinaryLit_xor_mask hrep.wellFormed hwidth, hx.not_last_eq_iff hc hc0 hcm]
    simp [mergesXor, hlit, hc0, hd0, hcm]
  · rw [hx.plain_eq_iff h hw hc hcm hd hd0 hdm]
    simp [mergesXor, hlit, hc0, hd0, hcm, hdm]

/-- A literal put on twice is gone, unless the first time it made a complement of a chain. -/
theorem mkBinaryLit_xor_twice_eq_iff (h : t.WellFormed) (hn : t.Normal) (hw : t.width = w)
    (hc : c < 2 ^ w) :
    mkBinaryLit .xor w (mkBinaryLit .xor w t c w) c w = t
      ↔ t.isLit = true ∨ c = Word.mask w ∨ t.xorLit ^^^ c ≠ Word.mask w := by
  have hiff := mkBinaryLit_xor_xor_eq_iff h hn hw hc hc
  rw [Nat.xor_self, mkBinaryLit_xor_zero h hw] at hiff
  rw [hiff]
  by_cases hlit : t.isLit = true
  · simp [hlit]
  rw [Bool.not_eq_true] at hlit
  obtain ⟨x, hx⟩ := exists_xorOf h hn hw hlit
  by_cases hc0 : c = 0
  · simp [mergesXor, hc0, hx.ne_mask]
  by_cases hcm : c = Word.mask w
  · simp [mergesXor, hcm]
  · simp [mergesXor, hc0, hcm, (mask_ne_zero hx.width_pos).symm]

/-- Both ways of putting two literals on stand for the same tree. -/
theorem mkBinary_xor_xor_replaces (h : t.WellFormed) (hw : t.width = w) (hc : c < 2 ^ w)
    (hd : d < 2 ^ w) :
    Replaces (mkBinary .xor (mkBinary .xor t (lit c w)) (lit d w))
        (binary .xor (binary .xor t (lit c w)) (lit d w))
      ∧ Replaces (mkBinary .xor t (lit (c ^^^ d) w))
        (binary .xor (binary .xor t (lit c w)) (lit d w)) := by
  subst hw
  have hlit : (lit d t.width).WellFormed := ⟨hd, h.valid⟩
  have hnode : (binary .xor (binary .xor t (lit c t.width)) (lit d t.width)).WellFormed :=
    ⟨⟨h, ⟨hc, h.valid⟩, rfl⟩, hlit, rfl⟩
  have hin : Replaces (mkBinary .xor t (lit c t.width)) _ := mkBinary_replaces hnode.1
  have hout := hin.binary .xor (Replaces.refl hlit) rfl
  have hchain := replaces_chain rfl hnode
  rw [eval_xor hc hd] at hchain
  exact ⟨(mkBinary_replaces hout.wellFormed).trans hout,
    (mkBinary_replaces hchain.wellFormed).trans hchain⟩

end Term

namespace Value

open Term

variable {v c d : Value} {k l : Nat}

/-- Putting two literals on with `^` one by one or together gives values that always mean the same.
They are the same value exactly where `mergesXor` says so. So a literal that is put on twice need
not be gone. -/
theorem xor_chain_eq_iff (hv : v.Canonical) (hc : c.Canonical) (hd : d.Canonical)
    (hck : c.toNat? = some k) (hdl : d.toNat? = some l) (hcw : c.width = v.width)
    (hdw : d.width = v.width) :
    (∃ r s, v.binary .xor c >>= (·.binary .xor d) = .ok r
      ∧ c.binary .xor d >>= v.binary .xor = .ok s
      ∧ r.width = s.width ∧ (∀ I, r.term.denote I = s.term.denote I)
      ∧ (r = s ↔ v.isConcrete = true
        ∨ mergesXor (Word.mask v.width) v.term.xorLit k l = true))
      ∧ (v.binary .xor c >>= (·.binary .xor c) = .ok v ↔ v.isConcrete = true
        ∨ k = Word.mask v.width ∨ v.term.xorLit ^^^ k ≠ Word.mask v.width) := by
  obtain ⟨w, hw⟩ : ∃ w, v.term.width = w := ⟨_, rfl⟩
  obtain ⟨hk, rfl⟩ := hc.eq_lit hck (hcw.trans hw)
  obtain ⟨hl, rfl⟩ := hd.eq_lit hdl (hdw.trans hw)
  have hwf := hv.wellFormed
  have hsub : BinaryOp.xor ≠ .sub := by decide
  have hin : (mkBinary .xor v.term (.lit k w)).width = w := width_mkBinary_lit hwf hw hk
  obtain ⟨hone, htwo⟩ := mkBinary_xor_xor_replaces hwf hw hk hl
  rw [show v.width = w from hw, isConcrete]
  refine ⟨⟨_, ⟨mkBinary .xor v.term (.lit (k ^^^ l) w)⟩, binary_bind_binary hv hw hk, ?_,
    hone.width_eq.trans htwo.width_eq.symm,
    fun I => (hone.denote_eq I).trans (htwo.denote_eq I).symm, ?_⟩, ?_⟩
  · rw [lit_binary_lit, eval_xor hk hl]
    exact binary_lit hw
  · rw [mk.injEq, mkBinary_lit hsub hin, mkBinary_lit hsub hw, mkBinary_lit hsub hw,
      mkBinaryLit_xor_xor_eq_iff hwf hv.normal hw hk hl]
  · rw [binary_bind_binary hv hw hk, mkBinary_lit hsub hin, mkBinary_lit hsub hw,
      ← mkBinaryLit_xor_twice_eq_iff hwf hv.normal hw hk, Except.ok.injEq]
    exact ⟨congrArg term, congrArg mk⟩

/-- A chain that never meets all ones, and one that is led there and back by complements. -/
theorem xor_chain_eq_iff_plain :
    let v : Value := ⟨.binary .xor (.sym "a" 8) (.lit 0x35 8)⟩
    (∃ r s, v.binary .xor ⟨.lit 0x0F 8⟩ >>= (·.binary .xor ⟨.lit 0xC0 8⟩) = .ok r
      ∧ (⟨.lit 0x0F 8⟩ : Value).binary .xor ⟨.lit 0xC0 8⟩ >>= v.binary .xor = .ok s ∧ r = s)
      ∧ v.binary .xor ⟨.lit 0xFF 8⟩ >>= (·.binary .xor ⟨.lit 0xFF 8⟩) = .ok v := by
  intro v
  have hv : v.Canonical := by decide
  obtain ⟨⟨r, s, hr, hs, -, -, hiff⟩, -⟩ := xor_chain_eq_iff (c := ⟨.lit 0x0F 8⟩)
    (d := ⟨.lit 0xC0 8⟩) hv (by decide) (by decide) rfl rfl rfl rfl
  obtain ⟨-, htwice⟩ := xor_chain_eq_iff (c := ⟨.lit 0xFF 8⟩) (d := ⟨.lit 0xFF 8⟩) hv (by decide)
    (by decide) rfl rfl rfl rfl
  exact ⟨⟨r, s, hr, hs, hiff.2 (.inr (by decide))⟩, htwice.2 (.inr (.inl (by decide)))⟩

/-- All ones first and another literal next leave a complement below the literal. A literal that
turns the one of a chain into all ones is not taken off again. -/
theorem xor_chain_ne :
    let a : Value := ⟨.sym "a" 8⟩
    let v : Value := ⟨.binary .xor (.sym "a" 8) (.lit 0x0F 8)⟩
    a.Canonical ∧ v.Canonical
      ∧ a.binary .xor ⟨.lit 0xFF 8⟩ >>= (·.binary .xor ⟨.lit 0x0F 8⟩)
        = .ok ⟨.binary .xor (.unary .not (.sym "a" 8)) (.lit 0x0F 8)⟩
      ∧ (⟨.lit 0xFF 8⟩ : Value).binary .xor ⟨.lit 0x0F 8⟩ >>= a.binary .xor
        = .ok ⟨.binary .xor (.sym "a" 8) (.lit 0xF0 8)⟩
      ∧ a.binary .xor ⟨.lit 0xFF 8⟩ >>= (·.binary .xor ⟨.lit 0x0F 8⟩)
        ≠ (⟨.lit 0xFF 8⟩ : Value).binary .xor ⟨.lit 0x0F 8⟩ >>= a.binary .xor
      ∧ v.binary .xor ⟨.lit 0xF0 8⟩ >>= (·.binary .xor ⟨.lit 0xF0 8⟩) ≠ .ok v := by
  intro a v
  have hone : a.binary .xor ⟨.lit 0xFF 8⟩ >>= (·.binary .xor ⟨.lit 0x0F 8⟩)
      = .ok ⟨.binary .xor (.unary .not (.sym "a" 8)) (.lit 0x0F 8)⟩ := by rfl
  have htwo : (⟨.lit 0xFF 8⟩ : Value).binary .xor ⟨.lit 0x0F 8⟩ >>= a.binary .xor
      = .ok ⟨.binary .xor (.sym "a" 8) (.lit 0xF0 8)⟩ := by rfl
  have hv : v.Canonical := by decide
  refine ⟨by decide, hv, hone, htwo, ?_, ?_⟩
  · rw [hone, htwo]
    rintro ⟨⟩
  · rw [binary_bind_binary hv (w := 8) rfl (by decide)]
    exact fun heq => absurd (congrArg term (Except.ok.inj heq)) (by decide)

end Value

end SymWord
