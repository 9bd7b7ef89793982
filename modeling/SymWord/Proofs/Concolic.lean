import SymWord.Model
import SymWord.Proofs.RegularValues

/-!
# Concolic consistency

A run on symbolic values and a run on the values that a model gives them stay together: every
operation fails on both sides with the same error, or the model evaluates the symbolic result to the
concrete one (`Operation.run_evaluates`).

The operations look at their operands only through widths, which evaluation keeps, and build nodes
by the rules of the normal form. On literals these rules end in a literal. Both results replace the
plain node, so the literal has to be the number that the symbolic result evaluates to.
-/

namespace SymWord

namespace Term

variable {b : Bindings} {s t l l' r r' : Term}

/-- The second term is the literal for what the first one evaluates to. -/
structure EvaluatesTo (b : Bindings) (s t : Term) : Prop where
  wellFormed : s.WellFormed
  value : ∃ n, s.evaluate b = some n ∧ t = lit n s.width

theorem evaluate_lt (h : s.WellFormed) {n : Nat} (hn : s.evaluate b = some n) :
    n < 2 ^ s.width := by
  have hI := Interpretation.ofBindings_extends b
  rw [← ((evaluate_eq_some_iff hI).1 hn).2]
  exact denote_lt _ h

theorem eq_lit_of_isLit (h : t.isLit = true) : ∃ v, t = lit v t.width := by
  cases t with
  | lit v w => exact ⟨v, rfl⟩
  | _ => cases h

theorem isConcat_of_isLit (h : t.isLit = true) : t.isConcat = false := by
  obtain ⟨v, hv⟩ := eq_lit_of_isLit h
  rw [hv]
  rfl

theorem isLit_mkExtract (high low v w : Nat) : (mkExtract high low (lit v w)).isLit = true := by
  rw [mkExtract]
  split <;> rfl

/-- Literals are joined into one as they are pushed. -/
theorem foldl_pushPart_isLit : ∀ (ts : List Term) {t : Term}, t.isLit = true →
    (∀ u ∈ ts, u.isLit = true) → ∃ u, ts.foldl pushPart [t] = [u] ∧ u.isLit = true
  | [], t, ht, _ => ⟨t, rfl, ht⟩
  | u :: us, t, ht, h => by
    obtain ⟨a, ha⟩ := eq_lit_of_isLit ht
    obtain ⟨c, hc⟩ := eq_lit_of_isLit (h u List.mem_cons_self)
    rw [List.foldl_cons, ha, hc]
    exact foldl_pushPart_isLit us rfl fun v hv => h v (List.mem_cons_of_mem _ hv)

theorem isLit_mkConcat {ts : List Term} (hne : ts ≠ []) (h : ∀ t ∈ ts, t.isLit = true) :
    (mkConcat ts).isLit = true := by
  have hflat := flatMap_flatten_of_flat fun t ht => isConcat_of_isLit (h t ht)
  obtain ⟨t, ts, rfl⟩ := List.exists_cons_of_ne_nil hne
  obtain ⟨u, hu, hlit⟩ := foldl_pushPart_isLit ts (h t List.mem_cons_self)
    fun v hv => h v (List.mem_cons_of_mem _ hv)
  have hjoin : joinParts (t :: ts) = [u] := by
    rw [joinParts, hflat, List.foldl_cons]
    exact congrArg List.reverse hu
  rw [mkConcat, hjoin]
  exact hlit

theorem width_mkExtract_bit {i : Nat} (h : s.WellFormed) (hi : i < s.width) :
    (mkExtract i i s).width = 1 := by
  have hwf : (extract i i s).WellFormed := ⟨h, Nat.le_refl i, hi⟩
  rw [(mkExtract_replaces s hwf).width_eq, width_extract]
  omega

namespace EvaluatesTo

theorem refl_lit {v w : Nat} (h : (lit v w).WellFormed) : EvaluatesTo b (lit v w) (lit v w) :=
  ⟨h, v, rfl, rfl⟩

theorem width_eq (h : EvaluatesTo b s t) : t.width = s.width := by
  obtain ⟨n, _, rfl⟩ := h.value
  rfl

theorem wellFormed_right (h : EvaluatesTo b s t) : t.WellFormed := by
  obtain ⟨n, hn, rfl⟩ := h.value
  exact ⟨evaluate_lt h.wellFormed hn, h.wellFormed.valid⟩

/-- Two sides that are rebuilt alike, the right one into a literal. -/
theorem rebuild {s' t' : Term} {n : Nat} (hs : Replaces s' s) (ht : Replaces t' t)
    (hlit : t'.isLit = true) (hw : t.width = s.width) (hsn : s.evaluate b = some n)
    (htn : t.evaluate b = some n) : EvaluatesTo b s' t' := by
  obtain ⟨v, hv⟩ := eq_lit_of_isLit hlit
  have hvn : some v = some n := by
    rw [← ht.evaluate htn, hv, evaluate]
  refine ⟨hs.wellFormed, n, hs.evaluate hsn, ?_⟩
  rw [hv, ht.width_eq, hw, hs.width_eq, Option.some.inj hvn]

theorem mkUnary (op : UnaryOp) (h : EvaluatesTo b s t) :
    EvaluatesTo b (mkUnary op s) (mkUnary op t) := by
  have ht := h.wellFormed_right
  obtain ⟨n, hn, rfl⟩ := h.value
  refine rebuild (mkUnary_replaces op h.wellFormed) (mkUnary_replaces op ht) rfl rfl
    (n := op.eval n s.width) ?_ rfl
  simp [evaluate, hn]

theorem mkBinary (op : BinaryOp) (hl : EvaluatesTo b l l') (hr : EvaluatesTo b r r')
    (hw : l.width = r.width) : EvaluatesTo b (mkBinary op l r) (mkBinary op l' r') := by
  have hwf : (binary op l r).WellFormed := ⟨hl.wellFormed, hr.wellFormed, hw⟩
  have hwf' : (binary op l' r').WellFormed :=
    ⟨hl.wellFormed_right, hr.wellFormed_right, by rw [hl.width_eq, hr.width_eq, hw]⟩
  obtain ⟨m, hm, rfl⟩ := hl.value
  obtain ⟨n, hn, rfl⟩ := hr.value
  refine rebuild (mkBinary_replaces hwf) (mkBinary_replaces hwf') rfl rfl
    (n := op.eval m n l.width) ?_ rfl
  simp [evaluate, hm, hn]

theorem mkCompare (op : Comparison) (hl : EvaluatesTo b l l') (hr : EvaluatesTo b r r')
    (hw : l.width = r.width) : EvaluatesTo b (mkCompare op l r) (mkCompare op l' r') := by
  have hwf : (compare op l r).WellFormed := ⟨hl.wellFormed, hr.wellFormed, hw⟩
  have hwf' : (compare op l' r').WellFormed :=
    ⟨hl.wellFormed_right, hr.wellFormed_right, by rw [hl.width_eq, hr.width_eq, hw]⟩
  obtain ⟨m, hm, rfl⟩ := hl.value
  obtain ⟨n, hn, rfl⟩ := hr.value
  refine rebuild (mkCompare_replaces hwf) (mkCompare_replaces hwf') rfl rfl
    (n := (op.eval m n l.width).toNat) ?_ rfl
  simp [evaluate, hm, hn]

theorem mkExtract {high low : Nat} (h : EvaluatesTo b s t) (hle : low ≤ high)
    (hlt : high < s.width) : EvaluatesTo b (mkExtract high low s) (mkExtract high low t) := by
  have hwf : (extract high low s).WellFormed := ⟨h.wellFormed, hle, hlt⟩
  have hwf' : (extract high low t).WellFormed := ⟨h.wellFormed_right, hle, h.width_eq ▸ hlt⟩
  obtain ⟨n, hn, rfl⟩ := h.value
  refine rebuild (mkExtract_replaces s hwf) (mkExtract_replaces _ hwf')
    (isLit_mkExtract high low n s.width) rfl
    (n := Word.truncate (n >>> low) (high - low + 1)) ?_ rfl
  simp [evaluate, hn]

theorem mkZeroExtend {bits : Nat} (h : EvaluatesTo b s t) (hlt : bits + s.width < Width.limit) :
    EvaluatesTo b (mkZeroExtend bits s) (mkZeroExtend bits t) := by
  have hwf : (zeroExtend bits s).WellFormed := ⟨h.wellFormed, hlt⟩
  have hwf' : (zeroExtend bits t).WellFormed := ⟨h.wellFormed_right, h.width_eq ▸ hlt⟩
  obtain ⟨n, hn, rfl⟩ := h.value
  refine rebuild (mkZeroExtend_replaces hwf) (mkZeroExtend_replaces hwf') ?_ rfl hn rfl
  rw [Term.mkZeroExtend]
  split <;> rfl

theorem mkSignExtend {bits : Nat} (h : EvaluatesTo b s t) (hlt : bits + s.width < Width.limit) :
    EvaluatesTo b (mkSignExtend bits s) (mkSignExtend bits t) := by
  have hwf : (signExtend bits s).WellFormed := ⟨h.wellFormed, hlt⟩
  have hwf' : (signExtend bits t).WellFormed := ⟨h.wellFormed_right, h.width_eq ▸ hlt⟩
  obtain ⟨n, hn, rfl⟩ := h.value
  refine rebuild (mkSignExtend_replaces hwf) (mkSignExtend_replaces hwf') ?_ rfl
    (n := Word.signExtend n s.width (s.width + bits)) ?_ rfl
  · rw [Term.mkSignExtend]
    split <;> rfl
  · simp [evaluate, hn]

theorem evaluateParts_map {α : Type} {f g : α → Term} : ∀ (xs : List α) (high : Nat),
    (∀ x ∈ xs, EvaluatesTo b (f x) (g x)) →
      ∃ n, evaluateParts b high (xs.map f) = some n ∧ evaluateParts b high (xs.map g) = some n
  | [], high, _ => ⟨high, rfl, rfl⟩
  | x :: xs, high, h => by
    have hx := h x List.mem_cons_self
    obtain ⟨m, hm, hg⟩ := hx.value
    obtain ⟨n, hf, hn⟩ := evaluateParts_map xs ((high <<< (f x).width) ||| m)
      fun y hy => h y (List.mem_cons_of_mem _ hy)
    refine ⟨n, ?_, ?_⟩
    · simp [evaluateParts, hm, hf]
    · simp [evaluateParts, hg, evaluate, width, hn]

theorem totalWidth_map {α : Type} {f g : α → Term} {xs : List α}
    (h : ∀ x ∈ xs, EvaluatesTo b (f x) (g x)) :
    totalWidth (xs.map g) = totalWidth (xs.map f) := by
  refine totalWidth_congr ?_
  rw [List.map_map, List.map_map]
  exact List.map_congr_left fun x hx => (h x hx).width_eq

theorem concat_wellFormed {α : Type} {f g : α → Term} {xs : List α}
    (h : ∀ x ∈ xs, EvaluatesTo b (f x) (g x)) (hne : xs ≠ [])
    (hlt : totalWidth (xs.map f) < Width.limit) :
    (concat (xs.map f)).WellFormed ∧ (concat (xs.map g)).WellFormed := by
  constructor
  · refine ⟨by simpa using hne, allWellFormed_iff.2 fun t ht => ?_, hlt⟩
    obtain ⟨x, hx, rfl⟩ := List.mem_map.1 ht
    exact (h x hx).wellFormed
  · refine ⟨by simpa using hne, allWellFormed_iff.2 fun t ht => ?_, totalWidth_map h ▸ hlt⟩
    obtain ⟨x, hx, rfl⟩ := List.mem_map.1 ht
    exact (h x hx).wellFormed_right

theorem mkConcat {α : Type} {f g : α → Term} {xs : List α}
    (h : ∀ x ∈ xs, EvaluatesTo b (f x) (g x)) (hne : xs ≠ [])
    (hlt : totalWidth (xs.map f) < Width.limit) :
    EvaluatesTo b (mkConcat (xs.map f)) (mkConcat (xs.map g)) := by
  obtain ⟨hwf, hwf'⟩ := concat_wellFormed h hne hlt
  obtain ⟨n, hn, hn'⟩ := evaluateParts_map xs 0 h
  refine rebuild (mkConcat_replaces hwf) (mkConcat_replaces hwf') ?_ ?_ hn hn'
  · refine isLit_mkConcat (by simpa using hne) fun t ht => ?_
    obtain ⟨x, hx, rfl⟩ := List.mem_map.1 ht
    obtain ⟨m, _, hm⟩ := (h x hx).value
    rw [hm]
    rfl
  · exact totalWidth_map h

/-! ## Single bits -/

theorem bit {i : Nat} (h : EvaluatesTo b s t) (hi : i < s.width) :
    EvaluatesTo b (Term.mkExtract i i s) (Term.mkExtract i i t) :=
  h.mkExtract (Nat.le_refl i) hi

theorem xnorStep_evaluatesTo {i : Nat} {acc acc' : Term} (h : EvaluatesTo b s t)
    (hi : i < s.width) (hacc : EvaluatesTo b acc acc') (hone : acc.width = 1) :
    EvaluatesTo b (xnorStep s acc i) (xnorStep t acc' i) ∧ (xnorStep s acc i).width = 1 := by
  have hbit := width_mkExtract_bit h.wellFormed hi
  have hxor := hacc.mkBinary .xor (h.bit hi) (hone.trans hbit.symm)
  have hwf : (binary .xor acc (Term.mkExtract i i s)).WellFormed :=
    ⟨hacc.wellFormed, (h.bit hi).wellFormed, hone.trans hbit.symm⟩
  refine ⟨hxor.mkUnary .not, ?_⟩
  rw [xnorStep, (mkUnary_replaces .not hxor.wellFormed).width_eq]
  exact (mkBinary_replaces hwf).width_eq.trans hone

theorem foldl_xnorStep_evaluatesTo (h : EvaluatesTo b s t) : ∀ (is : List Nat) {acc acc' : Term},
    (∀ i ∈ is, i < s.width) → EvaluatesTo b acc acc' → acc.width = 1 →
      EvaluatesTo b (is.foldl (xnorStep s) acc) (is.foldl (xnorStep t) acc')
        ∧ (is.foldl (xnorStep s) acc).width = 1
  | [], _, _, _, hacc, hone => ⟨hacc, hone⟩
  | i :: is, _, _, his, hacc, hone => by
    obtain ⟨hstep, hone'⟩ := h.xnorStep_evaluatesTo (his i List.mem_cons_self) hacc hone
    exact h.foldl_xnorStep_evaluatesTo is (fun j hj => his j (List.mem_cons_of_mem _ hj))
      hstep hone'

theorem isSet (h : EvaluatesTo b s t) (hw : s.width = 1) :
    EvaluatesTo b (Term.mkCompare .eq s (ofBool true)) (Term.mkCompare .eq t (ofBool true)) :=
  h.mkCompare .eq (refl_lit (wellFormed_ofBool true)) hw

end EvaluatesTo

end Term

namespace Model

variable {m : Model} {v v' x x' y y' u u' : Value}

/-- The same failure on both sides, or a value and what the model makes of it. -/
inductive Matches (m : Model) : Except Error Value → Except Error Value → Prop
  | error (e : Error) : Matches m (.error e) (.error e)
  | ok {v v' : Value} (h : m.evaluate v = .ok (some v')) : Matches m (.ok v) (.ok v')

theorem evaluate_eq_some_iff (h : v.term.WellFormed) :
    m.evaluate v = .ok (some v') ↔ v.term.EvaluatesTo m.bindings v'.term := by
  obtain ⟨t⟩ := v
  obtain ⟨t'⟩ := v'
  have hw : t.width ≠ 0 := Nat.ne_of_gt h.width_pos
  rw [evaluate]
  split
  · rename_i hlit
    obtain ⟨n, hn⟩ := Term.eq_lit_of_isLit hlit
    constructor
    · rintro ⟨⟩
      exact ⟨h, n, by rw [hn, Term.evaluate], hn⟩
    · rintro ⟨_, k, hk, rfl⟩
      rw [hn, Term.evaluate] at hk
      rw [← Option.some.inj hk, ← hn]
  · rw [Count.form_eq_ok_iff.2 (h.evaluationCounts_fit m.bindings)]
    simp only [bind, Except.bind, Value.width]
    split
    · rename_i n hn
      have hconst : Term.const n t.width = .lit n t.width := by
        rw [Term.const, Word.truncate_of_lt (Term.evaluate_lt h hn)]
      rw [Value.ofNat, if_neg hw, hconst]
      constructor
      · rintro ⟨⟩
        exact ⟨h, n, hn, rfl⟩
      · rintro ⟨_, k, hk, rfl⟩
        rw [← Option.some.inj (hn.symm.trans hk)]
        rfl
    · rename_i hn
      constructor
      · rintro ⟨⟩
      · rintro ⟨_, k, hk, _⟩
        rw [hn] at hk
        cases hk

theorem matches_ok (h : v.term.EvaluatesTo m.bindings v'.term) : m.Matches (.ok v) (.ok v') :=
  .ok ((evaluate_eq_some_iff h.wellFormed).2 h)

theorem matches_bind {r : Except Error Nat} {f g : Nat → Except Error Value}
    (h : ∀ n, m.Matches (f n) (g n)) : m.Matches (r >>= f) (r >>= g) := by
  cases r with
  | error e => exact .error e
  | ok n => exact h n

/-- Both sides find the operands to agree in width, or neither does. -/
theorem matches_agree (hx : x.term.EvaluatesTo m.bindings x'.term)
    (hy : y.term.EvaluatesTo m.bindings y'.term)
    (h : x.width = y.width → u.term.EvaluatesTo m.bindings u'.term) :
    m.Matches (do x.agree y; return u) (do x'.agree y'; return u') := by
  have hwx : x'.width = x.width := hx.width_eq
  have hwy : y'.width = y.width := hy.width_eq
  simp only [Value.agree, hwx, hwy]
  by_cases hw : x.width = y.width
  · rw [if_pos hw]
    exact matches_ok (h hw)
  · rw [if_neg hw]
    exact .error _

section

variable (hv : v.term.EvaluatesTo m.bindings v'.term)

include hv

theorem width_evaluatesTo : v'.width = v.width := hv.width_eq

theorem isNegative_evaluatesTo : v.isNegative.term.EvaluatesTo m.bindings v'.isNegative.term := by
  rw [Value.isNegative, Value.isNegative, width_evaluatesTo hv]
  exact hv.mkCompare .slt (.refl_lit (Term.wellFormed_zero hv.wellFormed.valid)) rfl

theorem isNonNegative_evaluatesTo :
    v.isNonNegative.term.EvaluatesTo m.bindings v'.isNonNegative.term := by
  rw [Value.isNonNegative, Value.isNonNegative, width_evaluatesTo hv]
  exact hv.mkCompare .sge (.refl_lit (Term.wellFormed_zero hv.wellFormed.valid)) rfl

theorem matches_not : m.Matches v.not v'.not := by
  rw [Value.not, Value.not, width_evaluatesTo hv]
  split
  · exact matches_ok (hv.mkUnary .not)
  · exact .error _

theorem matches_extract (high low : Nat) :
    m.Matches (v.extract high low) (v'.extract high low) := by
  by_cases h : high < low ∨ v.width ≤ high
  · rw [Value.extract, Value.extract, width_evaluatesTo hv, if_pos h, if_pos h]
    exact .error _
  · rw [not_or, Nat.not_lt, Nat.not_le] at h
    rw [Value.extract_eq hv.wellFormed.regular h.1 h.2,
      Value.extract_eq hv.wellFormed_right.regular h.1 (width_evaluatesTo hv ▸ h.2)]
    exact matches_ok (hv.mkExtract h.1 h.2)

theorem matches_extractBytes (high low : Nat) :
    m.Matches (v.extractBytes high low) (v'.extractBytes high low) := by
  rw [Value.extractBytes, Value.extractBytes, width_evaluatesTo hv]
  split
  · exact matches_extract hv _ _
  · exact .error _

theorem matches_truncateTo (n : Nat) : m.Matches (v.truncateTo n) (v'.truncateTo n) := by
  rw [Value.truncateTo, Value.truncateTo, width_evaluatesTo hv]
  split
  · exact .error _
  · exact matches_extract hv _ _

theorem matches_checkExtension {bits : Nat}
    (h : bits + v.width < Width.limit → u.term.EvaluatesTo m.bindings u'.term) :
    m.Matches (do v.checkExtension bits; return u) (do v'.checkExtension bits; return u') := by
  simp only [Value.checkExtension, width_evaluatesTo hv]
  split
  · rename_i hlt
    rw [Nat.add_comm] at hlt
    exact matches_ok (h hlt)
  · exact .error _

theorem half_eq : v'.half = v.half := by
  rw [Value.half, Value.half, width_evaluatesTo hv]

theorem matches_upperHalf : m.Matches v.upperHalf v'.upperHalf := by
  rw [Value.upperHalf_eq hv.wellFormed.regular, Value.upperHalf_eq hv.wellFormed_right.regular,
    half_eq hv, width_evaluatesTo hv]
  exact matches_bind fun n => matches_extract hv (v.width - 1) n

theorem matches_lowerHalf : m.Matches v.lowerHalf v'.lowerHalf := by
  rw [Value.lowerHalf_eq hv.wellFormed.regular, Value.lowerHalf_eq hv.wellFormed_right.regular,
    half_eq hv]
  exact matches_bind fun n => matches_extract hv (n - 1) 0

theorem matches_testBit {i : Nat} (hi : i < v.width) :
    m.Matches (v.testBit i) (v'.testBit i) := by
  rw [Value.testBit_eq hv.wellFormed.regular hi,
    Value.testBit_eq hv.wellFormed_right.regular (width_evaluatesTo hv ▸ hi)]
  exact matches_ok ((hv.bit hi).isSet (Term.width_mkExtract_bit hv.wellFormed hi))

theorem matches_topBit : m.Matches v.topBit v'.topBit := by
  have hpos : 0 < v.width := hv.wellFormed.width_pos
  rw [Value.topBit_eq hv.wellFormed.regular, Value.topBit_eq hv.wellFormed_right.regular,
    width_evaluatesTo hv]
  exact matches_testBit hv (by omega)

theorem matches_secondBit : m.Matches v.secondBit v'.secondBit := by
  rw [Value.secondBit, Value.secondBit, width_evaluatesTo hv]
  split
  · exact .error _
  · exact matches_testBit hv (by omega)

theorem matches_xnorReduce : m.Matches v.xnorReduce v'.xnorReduce := by
  have hpos : 0 < v.width := hv.wellFormed.width_pos
  obtain ⟨hbits, hone⟩ := hv.foldl_xnorStep_evaluatesTo _ (fun i hi => Term.mem_upper_bits hi)
    (hv.bit hpos) (Term.width_mkExtract_bit hv.wellFormed hpos)
  rw [Value.xnorReduce_eq hv.wellFormed.regular, Value.xnorReduce_eq hv.wellFormed_right.regular,
    width_evaluatesTo hv]
  exact matches_ok (hbits.isSet hone)

end

theorem matches_concat {f : Value → Value} {vs : List Value}
    (h : ∀ v ∈ vs, v.term.EvaluatesTo m.bindings (f v).term)
    (hlt : Term.totalWidth (vs.map Value.term) < Width.limit) :
    m.Matches (Value.concat vs) (Value.concat (vs.map f)) := by
  cases vs with
  | nil => exact .error _
  | cons v vs =>
    have hne := List.cons_ne_nil v vs
    have hcat := Term.EvaluatesTo.mkConcat (g := Value.term ∘ f) h hne hlt
    rw [Value.concat_eq (Term.EvaluatesTo.concat_wellFormed h hne hlt).1.regular, Value.concat_eq]
    · rw [List.map_map]
      exact matches_ok hcat
    · rw [List.map_map]
      exact (Term.EvaluatesTo.concat_wellFormed h hne hlt).2.regular

end Model

/-- An operation of the algebra with its arguments. -/
inductive Operation (α : Type) where
  | binary (op : BinaryOp) (x y : α)
  | compare (op : Comparison) (x y : α)
  | combine (c : Combination) (current update : α)
  | isNegative (x : α)
  | isNonNegative (x : α)
  | complement (x : α)
  | negate (x : α)
  | not (x : α)
  | xnorReduce (x : α)
  | bitAt (x : α) (i : Nat)
  | extract (x : α) (high low : Nat)
  | extractBytes (x : α) (high low : Nat)
  | truncateTo (x : α) (n : Nat)
  | zeroExtend (x : α) (bits : Nat)
  | signExtend (x : α) (bits : Nat)
  | concat (xs : List α)
  | upperHalf (x : α)
  | lowerHalf (x : α)
  | topBit (x : α)
  | secondBit (x : α)
  | bottomBit (x : α)

namespace Operation

open Model

def args {α : Type} : Operation α → List α
  | binary _ x y | compare _ x y | combine _ x y => [x, y]
  | isNegative x | isNonNegative x | complement x | negate x | not x | xnorReduce x => [x]
  | bitAt x _ | extract x _ _ | extractBytes x _ _ | truncateTo x _ => [x]
  | zeroExtend x _ | signExtend x _ => [x]
  | concat xs => xs
  | upperHalf x | lowerHalf x | topBit x | secondBit x | bottomBit x => [x]

def map {α β : Type} (f : α → β) : Operation α → Operation β
  | binary op x y => binary op (f x) (f y)
  | compare op x y => compare op (f x) (f y)
  | combine c x y => combine c (f x) (f y)
  | isNegative x => isNegative (f x)
  | isNonNegative x => isNonNegative (f x)
  | complement x => complement (f x)
  | negate x => negate (f x)
  | not x => not (f x)
  | xnorReduce x => xnorReduce (f x)
  | bitAt x i => bitAt (f x) i
  | extract x high low => extract (f x) high low
  | extractBytes x high low => extractBytes (f x) high low
  | truncateTo x n => truncateTo (f x) n
  | zeroExtend x bits => zeroExtend (f x) bits
  | signExtend x bits => signExtend (f x) bits
  | concat xs => concat (xs.map f)
  | upperHalf x => upperHalf (f x)
  | lowerHalf x => lowerHalf (f x)
  | topBit x => topBit (f x)
  | secondBit x => secondBit (f x)
  | bottomBit x => bottomBit (f x)

def run : Operation Value → Except Error Value
  | binary op x y => x.binary op y
  | compare op x y => x.compare op y
  | combine c x y => x.combine c y
  | isNegative x => .ok x.isNegative
  | isNonNegative x => .ok x.isNonNegative
  | complement x => .ok x.complement
  | negate x => .ok x.negate
  | not x => x.not
  | xnorReduce x => x.xnorReduce
  | bitAt x i => x.bitAt i
  | extract x high low => x.extract high low
  | extractBytes x high low => x.extractBytes high low
  | truncateTo x n => x.truncateTo n
  | zeroExtend x bits => x.zeroExtend bits
  | signExtend x bits => x.signExtend bits
  | concat xs => Value.concat xs
  | upperHalf x => x.upperHalf
  | lowerHalf x => x.lowerHalf
  | topBit x => x.topBit
  | secondBit x => x.secondBit
  | bottomBit x => x.bottomBit

theorem run_evaluates (m : Model) (f : Value → Value) (o : Operation Value)
    (hwf : ∀ v ∈ o.args, v.term.WellFormed)
    (heval : ∀ v ∈ o.args, m.evaluate v = .ok (some (f v)))
    (hwidth : ∀ vs, o = concat vs → Term.totalWidth (vs.map Value.term) < Width.limit) :
    m.Matches o.run (o.map f).run := by
  have h : ∀ v ∈ o.args, v.term.EvaluatesTo m.bindings (f v).term :=
    fun v hv => (evaluate_eq_some_iff (hwf v hv)).1 (heval v hv)
  cases o with
  | concat vs => exact matches_concat h (hwidth vs rfl)
  | binary op x y =>
    have hx := h x (by simp [args])
    have hy := h y (by simp [args])
    exact matches_agree hx hy fun hw => hx.mkBinary op hy hw
  | compare op x y =>
    have hx := h x (by simp [args])
    have hy := h y (by simp [args])
    exact matches_agree hx hy fun hw => hx.mkCompare op hy hw
  | combine c x y =>
    have hx := h x (by simp [args])
    have hy := h y (by simp [args])
    cases c with
    | or => exact matches_agree hx hy fun hw => hx.mkBinary .or hy hw
    | and => exact matches_agree hx hy fun hw => hx.mkBinary .and hy hw
    | replace => exact matches_agree hx hy fun _ => hy
  | isNegative x => exact matches_ok (isNegative_evaluatesTo (h x List.mem_cons_self))
  | isNonNegative x => exact matches_ok (isNonNegative_evaluatesTo (h x List.mem_cons_self))
  | complement x => exact matches_ok ((h x List.mem_cons_self).mkUnary .not)
  | negate x => exact matches_ok ((h x List.mem_cons_self).mkUnary .neg)
  | not x => exact matches_not (h x List.mem_cons_self)
  | xnorReduce x => exact matches_xnorReduce (h x List.mem_cons_self)
  | bitAt x i => exact matches_extract (h x List.mem_cons_self) i i
  | extract x high low => exact matches_extract (h x List.mem_cons_self) high low
  | extractBytes x high low => exact matches_extractBytes (h x List.mem_cons_self) high low
  | truncateTo x n => exact matches_truncateTo (h x List.mem_cons_self) n
  | zeroExtend x bits =>
    have hx := h x List.mem_cons_self
    exact matches_checkExtension hx fun hlt => hx.mkZeroExtend hlt
  | signExtend x bits =>
    have hx := h x List.mem_cons_self
    exact matches_checkExtension hx fun hlt => hx.mkSignExtend hlt
  | upperHalf x => exact matches_upperHalf (h x List.mem_cons_self)
  | lowerHalf x => exact matches_lowerHalf (h x List.mem_cons_self)
  | topBit x => exact matches_topBit (h x List.mem_cons_self)
  | secondBit x => exact matches_secondBit (h x List.mem_cons_self)
  | bottomBit x =>
    have hx := h x List.mem_cons_self
    exact matches_testBit hx hx.wellFormed.width_pos

/-- The low half of one symbol put above another one. -/
theorem run_evaluates_concat :
    let m : Model := (Dictionary.empty.insert "x" ⟨.lit 0x12 8⟩).insert "y" ⟨.lit 0x34 8⟩
    let x : Value := ⟨.extract 3 0 (.sym "x" 8)⟩
    let y : Value := ⟨.sym "y" 8⟩
    m.evaluate x = .ok (some ⟨.lit 2 4⟩) ∧ m.evaluate y = .ok (some ⟨.lit 0x34 8⟩) ∧
      m.Matches (concat [x, y]).run (concat [⟨.lit 2 4⟩, ⟨.lit 0x34 8⟩]).run := by
  refine ⟨by rfl, by rfl, ?_⟩
  refine run_evaluates _ (fun v => if v.width = 4 then ⟨.lit 2 4⟩ else ⟨.lit 0x34 8⟩) _ ?_ ?_ ?_
  · simp only [args, List.forall_mem_cons]
    exact ⟨by decide, by decide, by simp⟩
  · simp only [args, List.forall_mem_cons]
    exact ⟨by rfl, by rfl, by simp⟩
  · rintro _ ⟨⟩
    decide

end Operation

end SymWord
