import Mathlib.Algebra.Group.Nat.Even
import Mathlib.Data.Nat.Bits
import SymWord.Proofs.CanonicalValues

/-!
# Parity by exclusive nor

Exclusive nor of two bits tells whether they are equal. Taking in one more bit of a word by it turns
the result round for a zero and keeps it for a one, so after each step the result tells whether the
number of bits taken in and the number of ones among them are even together
(`denote_foldl_xnorNode`). At the top bit these are the width and the ones of the whole word, and
for a width that is even itself the reduction is the even-parity flag.
-/

namespace SymWord

namespace Word

/-- The number of bits that are set. -/
def popcount (n : Nat) : Nat := n.bits.count true

theorem popcount_eq (n : Nat) : popcount n = (n.testBit 0).toNat + popcount (n / 2) := by
  rcases Nat.eq_zero_or_pos n with rfl | hn
  · simp [popcount]
  · have hbits : n.bits = n.testBit 0 :: (n / 2).bits := by
      rw [← Nat.bits_append_bit (n / 2) (n.testBit 0) ?_]
      · congr 1
        rw [Nat.testBit_zero, Nat.bit_val]
        rcases Nat.mod_two_eq_zero_or_one n with h | h <;> simp [h] <;> omega
      · intro hzero
        simp only [Nat.testBit_zero, decide_eq_true_eq]
        omega
    rw [popcount, hbits, List.count_cons, popcount]
    cases n.testBit 0 <;> simp [Nat.add_comm]

/-- A word has no ones past its width. -/
theorem countP_testBit : ∀ {w n : Nat}, n < 2 ^ w → (List.range w).countP n.testBit = popcount n
  | 0, n, h => by
    have hzero : n = 0 := by simpa using h
    simp [hzero, popcount]
  | w + 1, n, h => by
    have hhalf : n / 2 < 2 ^ w := by
      rw [Nat.pow_succ] at h
      omega
    have hshift : n.testBit ∘ Nat.succ = (n / 2).testBit := by
      funext i
      rw [Function.comp, Nat.testBit_succ]
    rw [List.range_succ_eq_map, List.countP_cons, List.countP_map, hshift, countP_testBit hhalf,
      popcount_eq n]
    cases n.testBit 0 <;> simp [Nat.add_comm]

/-- One more bit makes one more, and a bit that is set counts a second time among the ones. -/
theorem even_count_succ (p : Nat → Bool) (k : Nat) :
    decide (Even ((List.range (k + 1)).countP p + (k + 1)))
      = (decide (Even ((List.range k).countP p + k)) == p k) := by
  rw [List.range_succ, List.countP_append, Bool.eq_iff_iff, decide_eq_true_iff, beq_iff_eq]
  generalize (List.range k).countP p = c
  cases hp : p k with
  | false =>
    have hone : [k].countP p = 0 := by simp [hp]
    rw [hone, Nat.add_zero, ← Nat.add_assoc, Nat.even_add_one, decide_eq_false_iff_not]
  | true =>
    have hone : [k].countP p = 1 := by simp [hp]
    rw [hone, show c + 1 + (k + 1) = c + k + 1 + 1 by omega, Nat.even_add_one, Nat.even_add_one,
      not_not, decide_eq_true_iff]

end Word

namespace Term

variable {t acc : Term} {i : Nat}

theorem denote_bit (I : Interpretation) :
    (extract i i t).denote I = ((t.denote I).testBit i).toNat := by
  rw [denote_extract I, Nat.sub_self, Nat.zero_add, Nat.pow_one, Nat.toNat_testBit,
    Nat.shiftRight_eq_div_pow]

theorem denote_xnorNode (I : Interpretation) (hone : acc.width = 1) {a : Bool}
    (ha : acc.denote I = a.toNat) :
    (xnorNode t acc i).denote I = (a == (t.denote I).testBit i).toNat := by
  rw [xnorNode, denote, denote, width, denote_bit I, ha, hone]
  cases a <;> cases (t.denote I).testBit i <;> rfl

/-- What the exclusive nor of the lowest `k + 1` bits tells. -/
theorem denote_foldl_xnorNode (I : Interpretation) (h : t.WellFormed) : ∀ {k : Nat}, k < t.width →
    ((List.range' 1 k).foldl (xnorNode t) (extract 0 0 t)).denote I
      = (decide (Even ((List.range (k + 1)).countP (t.denote I).testBit + (k + 1)))).toNat
  | 0, _ => by
    rw [List.range'_zero, List.foldl_nil, denote_bit I, Word.even_count_succ]
    cases (t.denote I).testBit 0 <;> rfl
  | k + 1, hk => by
    have hbelow : ∀ i ∈ List.range' 1 k, i < t.width := by
      intro i hi
      have := List.mem_range'_1.1 hi
      omega
    have hbit : (extract 0 0 t).WellFormed := ⟨h, Nat.le_refl 0, by omega⟩
    obtain ⟨-, hone⟩ := foldl_xnorNode_wellFormed h _ hbelow hbit rfl
    have hlast : List.range' 1 (k + 1) = List.range' 1 k ++ [k + 1] := by
      rw [List.range'_1_concat, Nat.add_comm 1 k]
    rw [hlast, List.foldl_append, List.foldl_cons, List.foldl_nil, Word.even_count_succ]
    exact denote_xnorNode I hone (denote_foldl_xnorNode I h (by omega))

end Term

namespace Value

variable {v x : Value}

theorem width_xnorReduce (hv : v.Canonical) (hx : v.xnorReduce = .ok x) : x.width = 1 := by
  rw [width, (represents_xnorReduce hv hx).replaces.width_eq]
  rfl

theorem denote_xnorReduce (hv : v.Canonical) (hx : v.xnorReduce = .ok x) (I : Interpretation) :
    x.term.denote I = (decide (Even (Word.popcount (v.term.denote I) + v.width))).toNat := by
  have hpos : 0 < v.width := hv.wellFormed.width_pos
  have htop : v.width - 1 < v.term.width := Nat.sub_lt hpos Nat.one_pos
  have hlt : v.term.denote I < 2 ^ v.width := Term.denote_lt I hv.wellFormed
  have hrepr := represents_xnorReduce hv hx
  rw [hrepr.replaces.denote_eq I, Term.denote, hrepr.wellFormed.2.2,
    Term.denote_foldl_xnorNode I hv.wellFormed htop, Nat.sub_add_cancel hpos,
    Word.countP_testBit hlt]
  -- a bit is equal to one exactly if it is set
  cases decide (Even (Word.popcount (v.term.denote I) + v.width)) <;> rfl

theorem exists_evaluate_xnorReduce (hv : v.Canonical) (hx : v.xnorReduce = .ok x) {m : Model}
    {u : Value} (hm : m.evaluate v = .ok (some u)) : ∃ x', m.evaluate x = .ok (some x') := by
  have hmatch := Model.matches_xnorReduce ((Model.evaluate_eq_some_iff hv.wellFormed).1 hm)
  rw [hx] at hmatch
  generalize u.xnorReduce = r at hmatch
  cases hmatch with
  | ok h => exact ⟨_, h⟩

theorem evaluate_xnorReduce (hv : v.Canonical) (hx : v.xnorReduce = .ok x) {m : Model} {u : Value}
    {n : Nat} (hm : m.evaluate v = .ok (some u)) (hn : u.toNat? = some n) :
    m.evaluate x = .ok (some (.ofBool (decide (Even (Word.popcount n + v.width))))) := by
  have hu := (Model.evaluate_eq_some_iff hv.wellFormed).1 hm
  have hwf := (represents_xnorReduce hv hx).canonical.wellFormed
  obtain ⟨x', hx'⟩ := exists_evaluate_xnorReduce hv hx hm
  have hxnor := (Model.evaluate_eq_some_iff hwf).1 hx'
  have hI := Interpretation.ofBindings_extends m.bindings
  obtain ⟨k, hk, hlit⟩ := hu.value
  obtain ⟨r, hr, -⟩ := hxnor.value
  have hkn : k = n := by
    have hterm := term_of_toNat? hn
    rw [hlit, Term.lit.injEq] at hterm
    exact hterm.1
  have hparity : r = (decide (Even (Word.popcount n + v.width))).toNat := by
    rw [← ((Term.evaluate_eq_some_iff hI).1 hr).2, denote_xnorReduce hv hx,
      ((Term.evaluate_eq_some_iff hI).1 hk).2, hkn]
  have hwidth : x.term.width = 1 := width_xnorReduce hv hx
  refine (Model.evaluate_eq_some_iff hwf).2 ⟨hwf, r, hr, ?_⟩
  rw [hparity, hwidth]
  rfl

/-- The reduction of a canonical value succeeds with a bit, and it is set exactly if the ones of the
word and its width are even together, under every interpretation and under every model that has a
number for the value. At a width of eight bits it is the even-parity flag. -/
theorem xnorReduce_parity (hv : v.Canonical) :
    ∃ x, v.xnorReduce = .ok x ∧ x.width = 1
    ∧ (∀ I, x.term.denote I
      = (decide (Even (Word.popcount (v.term.denote I) + v.width))).toNat)
    ∧ ∀ (m : Model) (u : Value) (n : Nat), m.evaluate v = .ok (some u) → u.toNat? = some n →
      m.evaluate x = .ok (some (.ofBool (decide (Even (Word.popcount n + v.width)))))
      ∧ (v.width = 8 →
        m.evaluate x = .ok (some (.ofBool (decide (Even (Word.popcount n)))))) := by
  have hx := xnorReduce_eq hv.wellFormed.regular
  refine ⟨_, hx, width_xnorReduce hv hx, denote_xnorReduce hv hx, fun m u n hm hn => ?_⟩
  have heval := evaluate_xnorReduce hv hx hm hn
  refine ⟨heval, fun hw => ?_⟩
  have heven : Even (Word.popcount n + 8) ↔ Even (Word.popcount n) := by
    rw [Nat.even_add, iff_true_right (show Even 8 by decide)]
  rw [heval, hw, decide_eq_decide.2 heven]

/-- The parity flag of a difference, as the flags of a comparison are computed. -/
theorem xnorReduce_parity_flag :
    let m : Model := Dictionary.empty.insert "al" ⟨.lit 0x13 8⟩
    let diff : Value := ⟨.binary .add (.sym "al" 8) (.lit 0xf0 8)⟩
    diff.Canonical ∧ m.evaluate diff = .ok (some ⟨.lit 3 8⟩) ∧
      ∃ x, diff.xnorReduce = .ok x ∧ m.evaluate x = .ok (some (.ofBool true)) := by
  intro m diff
  have hdiff : diff.Canonical := by decide
  have heval : m.evaluate diff = .ok (some ⟨.lit 3 8⟩) := by rfl
  obtain ⟨x, hx, -, -, hparity⟩ := xnorReduce_parity hdiff
  have hflag := (hparity m _ 3 heval rfl).2 rfl
  have heven : Even (Word.popcount 3) := by
    rw [← Word.countP_testBit (show 3 < 2 ^ 8 by decide)]
    decide
  rw [decide_eq_true heven] at hflag
  exact ⟨hdiff, heval, x, hx, hflag⟩

end Value

end SymWord
