import SymWord.Proofs.CanonicalValues

/-!
# Strict equality

Strict equality normalizes two symbolic values once more before it compares them. Every constructor
makes a stable value, one that is regular and in normal form, and every call of the algebra keeps to
them (`AlgebraCall.run_stable`). The second normalization of a stable value forms no count that is
too great (`Regular.normalCounts_fit_of_normal`) and changes nothing, so strict equality is
equality.

Stable values need not be well-formed: a concatenation with a zero in front may have been stopped at
the greatest width. That does not matter here, since the rules of the normal form do not look at
whether a zero extension was stopped.
-/

namespace SymWord

namespace Term

open SymWord.Count

/-! ## Substitution -/

mutual

theorem replace_fills {old new : Term} (hnew : new.Regular) (hw : new.width = old.width) :
    ∀ (t : Term), t.Regular → Fills (replace old new t) t := by
  intro t h
  rw [replace.eq_def]
  split
  · rename_i heq
    exact ⟨hnew, heq ▸ hw⟩
  match t, h with
  | lit _ _, h | sym _ _, h => exact Fills.refl h
  | unary _ t, h =>
    have ht := replace_fills hnew hw t h
    exact ⟨ht.regular, ht.width_eq⟩
  | binary _ l r, h =>
    have hl := replace_fills hnew hw l h.1
    have hr := replace_fills hnew hw r h.2.1
    exact ⟨⟨hl.regular, hr.regular, by rw [hl.width_eq, hr.width_eq, h.2.2]⟩, hl.width_eq⟩
  | compare _ l r, h =>
    have hl := replace_fills hnew hw l h.1
    have hr := replace_fills hnew hw r h.2.1
    exact ⟨⟨hl.regular, hr.regular, by rw [hl.width_eq, hr.width_eq, h.2.2]⟩, rfl⟩
  | extract _ _ t, h =>
    have ht := replace_fills hnew hw t h.1
    exact ⟨⟨ht.regular, h.2.1, ht.width_eq ▸ h.2.2⟩, rfl⟩
  | concat ts, h =>
    obtain ⟨hts, hwts⟩ := replaceList_fills hnew hw ts h.2.1
    exact ⟨regular_concat_of_widths h hts hwts, totalWidth_congr hwts⟩
  | zeroExtend _ t, h =>
    have ht := replace_fills hnew hw t h
    exact ⟨ht.regular, by rw [width, width, ht.width_eq]⟩
  | signExtend _ t, h =>
    have ht := replace_fills hnew hw t h.1
    exact ⟨⟨ht.regular, ht.width_eq ▸ h.2⟩, by rw [width, width, ht.width_eq]⟩
  | apply _ ts _, h => exact ⟨⟨(replaceList_fills hnew hw ts h.1).1, h.2⟩, rfl⟩
  | select _ t _, h => exact ⟨⟨(replace_fills hnew hw t h.1).regular, h.2⟩, rfl⟩

theorem replaceList_fills {old new : Term} (hnew : new.Regular) (hw : new.width = old.width) :
    ∀ (ts : List Term), AllRegular ts →
      AllRegular (replaceList old new ts) ∧ (replaceList old new ts).map width = ts.map width
  | [], _ => ⟨trivial, rfl⟩
  | t :: ts, h => by
    have ht := replace_fills hnew hw t h.1
    obtain ⟨hts, hwts⟩ := replaceList_fills hnew hw ts h.2
    exact ⟨⟨ht.regular, hts⟩, by
      rw [replaceList, List.map_cons, List.map_cons, ht.width_eq, hwts]⟩

end

/-! ## Normalizing again -/

mutual

/-- Only extensions of literals and of extensions are added up, and a term in normal form has
none. -/
theorem Regular.normalCounts_fit_of_normal : ∀ {t : Term}, t.Regular → t.Normal →
    AllFit t.normalCounts
  | lit _ _, _, _ | sym _ _, _, _ => allFit_nil
  | unary _ t, h, hn => by
    have ht : t.Regular := h
    rw [normalCounts, normalize_of_normal hn.1, allFit_append]
    exact ⟨ht.normalCounts_fit_of_normal hn.1, ht.widthCounts_fit⟩
  | binary _ l r, h, hn => by
    simp only [normalCounts, normalize_of_normal hn.1, normalize_of_normal hn.2.1, allFit_append]
    exact ⟨⟨h.1.normalCounts_fit_of_normal hn.1, h.2.1.normalCounts_fit_of_normal hn.2.1⟩,
      mkBinaryCounts_fit h.1 h.2.1⟩
  | compare _ l r, h, hn => by
    simp only [normalCounts, normalize_of_normal hn.1, normalize_of_normal hn.2.1, allFit_append]
    exact ⟨⟨h.1.normalCounts_fit_of_normal hn.1, h.2.1.normalCounts_fit_of_normal hn.2.1⟩,
      mkCompareCounts_fit h.1 h.2.1⟩
  | extract _ _ t, h, hn => by
    rw [normalCounts, normalize_of_normal hn.1, allFit_append]
    exact ⟨h.1.normalCounts_fit_of_normal hn.1, h.mkExtractCounts_fit⟩
  | concat ts, h, hn => by
    rw [normalCounts, normalizeList_of_normal ts hn.1, allFit_append]
    exact ⟨h.2.1.normalCountsList_fit_of_normal hn.1, (allFit_append.1 h.mkConcatCounts_fit).1⟩
  | zeroExtend bits t, h, hn => by
    have ht : t.Regular := h
    obtain ⟨hnormal, -, hlit, hext⟩ := hn
    rw [normalCounts, normalize_of_normal hnormal, allFit_append]
    refine ⟨ht.normalCounts_fit_of_normal hnormal, ?_⟩
    unfold mkZeroExtendCounts
    split
    · exact allFit_nil
    cases t with
    | lit => cases hlit
    | zeroExtend => cases hext
    | _ => exact allFit_nil
  | signExtend bits t, h, hn => by
    rw [normalCounts, normalize_of_normal hn.1, allFit_append]
    exact ⟨h.1.normalCounts_fit_of_normal hn.1, mkSignExtendCounts_fit h.2⟩
  | apply _ _ _, h, hn => h.1.normalCountsList_fit_of_normal hn
  | select _ t _, h, hn => Regular.normalCounts_fit_of_normal (t := t) h.1 hn

theorem AllRegular.normalCountsList_fit_of_normal : ∀ {ts : List Term}, AllRegular ts →
    AllNormal ts → AllFit (normalCountsList ts)
  | [], _, _ => allFit_nil
  | _ :: _, h, hn => by
    rw [normalCountsList, allFit_append]
    exact ⟨h.1.normalCounts_fit_of_normal hn.1, h.2.normalCountsList_fit_of_normal hn.2⟩

end

theorem foldl_xnorStep_normal {t : Term} (h : t.Regular) (hn : t.Normal) : ∀ (is : List Nat)
    {acc : Term}, (∀ i ∈ is, i < t.width) → Fills acc (ofBool true) → acc.Normal →
      (is.foldl (xnorStep t) acc).Normal
  | [], _, _, _, hacc => hacc
  | i :: is, _, his, hfills, hacc => by
    rw [List.forall_mem_cons] at his
    have hbit := mkExtract_fills_bit h his.1
    have hxor : (mkBinary .xor _ (mkExtract i i t)).Normal :=
      mkBinary_normal (hfills.width_eq.trans hbit.width_eq.symm) hacc
        (mkExtract_normal t (regular_bit h his.1) hn)
    exact foldl_xnorStep_normal h hn is his.2 (xnorStep_fills h his.1 hfills) (mkUnary_normal hxor)

end Term

namespace Value

open Term SymWord.Count

/-! ## Stable values -/

/-- The value is a fixed point of normalization, on which no count is too great. -/
structure Stable (v : Value) : Prop where
  regular : v.term.Regular
  normal : v.term.Normal

section

variable {v x y u : Value} {bits high low : Nat}

theorem stable_binary {op : BinaryOp} (hx : x.Stable) (hy : y.Stable)
    (h : x.binary op y = .ok u) : u.Stable := by
  obtain ⟨hw, rfl⟩ := eq_of_agree h
  exact ⟨(mkBinary_fills ⟨hx.regular, hy.regular, hw⟩).regular,
    mkBinary_normal hw hx.normal hy.normal⟩

theorem stable_mkCompare (op : Comparison) {t s : Term} (ht : t.Regular ∧ t.Normal)
    (hs : s.Regular ∧ s.Normal) (hw : t.width = s.width) : (⟨mkCompare op t s⟩ : Value).Stable :=
  ⟨(mkCompare_fills ⟨ht.1, hs.1, hw⟩).regular, mkCompare_normal ht.2 hs.2⟩

theorem stable_compare {op : Comparison} (hx : x.Stable) (hy : y.Stable)
    (h : x.compare op y = .ok u) : u.Stable := by
  obtain ⟨hw, rfl⟩ := eq_of_agree h
  exact stable_mkCompare op ⟨hx.regular, hx.normal⟩ ⟨hy.regular, hy.normal⟩ hw

theorem stable_compare_zero (op : Comparison) (hx : x.Stable) :
    (⟨mkCompare op x.term (.zero x.width)⟩ : Value).Stable :=
  stable_mkCompare op ⟨hx.regular, hx.normal⟩ ⟨hx.regular.valid, trivial⟩ rfl

theorem stable_unary (op : UnaryOp) (hx : x.Stable) : (⟨mkUnary op x.term⟩ : Value).Stable :=
  ⟨(mkUnary_fills op hx.regular).regular, mkUnary_normal hx.normal⟩

theorem stable_extract (hv : v.Stable) (h : v.extract high low = .ok u) : u.Stable := by
  obtain ⟨hle, hhigh, rfl⟩ := eq_of_extract h
  have hregular : (Term.extract high low v.term).Regular := ⟨hv.regular, hle, hhigh⟩
  exact ⟨(mkExtract_fills _ hregular).regular, mkExtract_normal _ hregular hv.normal⟩

theorem stable_testBit {i : Nat} (hv : v.Stable) (hi : i < v.width) (h : v.testBit i = .ok u) :
    u.Stable := by
  obtain ⟨rfl, -⟩ := eq_of_counted h
  have hbit := mkExtract_fills_bit hv.regular hi
  exact stable_mkCompare .eq
    ⟨hbit.regular, mkExtract_normal _ (regular_bit hv.regular hi) hv.normal⟩
    ⟨regular_ofBool true, trivial⟩ hbit.width_eq

theorem stable_xnorReduce (hv : v.Stable) (h : v.xnorReduce = .ok u) : u.Stable := by
  obtain ⟨rfl, -⟩ := eq_of_counted h
  have hpos : 0 < v.width := hv.regular.valid.1
  have hbit := mkExtract_fills_bit hv.regular hpos
  have hbelow : ∀ i ∈ List.range' 1 (v.width - 1), i < v.term.width :=
    fun i hi => mem_upper_bits hi
  have hbits := foldl_xnorStep_fills hv.regular _ hbelow hbit
  exact stable_mkCompare .eq ⟨hbits.regular, foldl_xnorStep_normal hv.regular hv.normal _ hbelow
    hbit (mkExtract_normal _ (regular_bit hv.regular hpos) hv.normal)⟩
    ⟨regular_ofBool true, trivial⟩ hbits.width_eq

theorem stable_zeroExtend (hv : v.Stable) (h : v.zeroExtend bits = .ok u) : u.Stable := by
  obtain ⟨hlt, rfl⟩ := eq_of_checkExtension h
  exact ⟨(mkZeroExtend_fills hv.regular (mkZeroExtendCounts_fit hlt)).regular,
    mkZeroExtend_normal hv.normal⟩

theorem stable_signExtend (hv : v.Stable) (h : v.signExtend bits = .ok u) : u.Stable := by
  obtain ⟨hlt, rfl⟩ := eq_of_checkExtension h
  exact ⟨(mkSignExtend_fills ⟨hv.regular, hlt⟩).regular, mkSignExtend_normal hv.normal⟩

/-- What was stopped at the greatest width is stable too. -/
theorem stable_concat {vs : List Value} (hvs : ∀ v ∈ vs, v.Stable) (h : concat vs = .ok u) :
    u.Stable := by
  have hregular : AllRegular (vs.map term) := allRegular_iff.2 fun t ht => by
    obtain ⟨v, hv, rfl⟩ := List.mem_map.1 ht
    exact (hvs v hv).regular
  have hnormal : AllNormal (vs.map term) := allNormal_iff.2 fun t ht => by
    obtain ⟨v, hv, rfl⟩ := List.mem_map.1 ht
    exact (hvs v hv).normal
  cases vs with
  | nil => cases h
  | cons v vs =>
    obtain ⟨rfl, hfit⟩ := eq_of_counted h
    have hne : (v :: vs).map term ≠ [] := List.cons_ne_nil _ _
    exact ⟨(mkConcat_regular hregular hne hfit).1, mkConcat_normal hne hnormal⟩

theorem stable_ofTree {t : Term} (ht : t.Regular) (h : ofTree t = .ok u) : u.Stable := by
  obtain ⟨rfl, hfit⟩ := eq_of_counted h
  have hcounts := (allFit_append.1 hfit).1
  exact ⟨(normalize_fills t ht hcounts).regular, ht.normalize_normal hcounts⟩

theorem stable_substitute {old new : Value} (hv : v.Stable) (hnew : new.Stable)
    (h : v.substitute old new = .ok u) : u.Stable := by
  obtain ⟨hw, h⟩ := eq_of_substitute h
  split at h
  · cases h
    exact hv
  · exact stable_ofTree (replace_fills hnew.regular hw.symm v.term hv.regular).regular h

end

end Value

theorem AlgebraCall.run_stable {c : AlgebraCall} {u : Value} (h : ∀ v ∈ c.args, v.Stable)
    (hrun : c.run = .ok u) : u.Stable := by
  obtain ⟨t, -, hmakes⟩ := run_makes hrun
  cases hmakes with
  | argument hv => exact h _ hv
  | unary hx => exact Value.stable_unary _ (h _ hx)
  | binary hx hy hu => exact Value.stable_binary (h _ hx) (h _ hy) hu
  | compare hx hy hu => exact Value.stable_compare (h _ hx) (h _ hy) hu
  | compareZero hx => exact Value.stable_compare_zero _ (h _ hx)
  | extract hx hu => exact Value.stable_extract (h _ hx) hu
  | testBit hx hi hu => exact Value.stable_testBit (h _ hx) (hi (h _ hx).regular.valid.1) hu
  | xnorReduce hx hu => exact Value.stable_xnorReduce (h _ hx) hu
  | zeroExtend hx hu => exact Value.stable_zeroExtend (h _ hx) hu
  | signExtend hx hu => exact Value.stable_signExtend (h _ hx) hu
  | concat hc hu =>
    subst hc
    exact Value.stable_concat h hu
  | substitute hv hnew hu => exact Value.stable_substitute (h _ hv) (h _ hnew) hu

namespace Value

open Term SymWord.Count

/-! ## Built values -/

/-- The value comes from the constructors by some sequence of calls. -/
inductive Built : Value → Prop
  | number {n w : Nat} {v : Value} (hw : w < Width.limit) (h : ofNat n w = .ok v) : Built v
  | integer {n : Int} {w : Nat} {v : Value} (hw : w < Width.limit) (h : ofInt n w = .ok v) : Built v
  | truth (b : Bool) : Built (.ofBool b)
  | symbol {name : String} {w : Nat} {v : Value} (hw : w < Width.limit)
    (h : Value.symbol name w = .ok v) : Built v
  | tree {t : Term} {v : Value} (ht : t.WellFormed) (h : ofTree t = .ok v) : Built v
  | call {c : AlgebraCall} {v : Value} (hargs : ∀ u ∈ c.args, Built u) (h : c.run = .ok v) : Built v

section

variable {x y v : Value}

theorem Built.stable (h : v.Built) : v.Stable := by
  induction h with
  | number hw h | integer hw h | symbol hw h =>
    obtain ⟨hpos, rfl⟩ := eq_of_nonzero h
    exact ⟨⟨hpos, hw⟩, trivial⟩
  | truth b => exact ⟨regular_ofBool b, trivial⟩
  | tree ht h => exact stable_ofTree ht.regular h
  | call _ hrun hargs => exact AlgebraCall.run_stable hargs hrun

theorem Stable.strictEqual_eq (hx : x.Stable) (hy : y.Stable) :
    x.strictEqual y = .ok (decide (x = y)) := by
  have hbeq : (x == y) = decide (x = y) := rfl
  have hterms : (x.term == y.term) = decide (x = y) := by
    obtain ⟨s⟩ := x
    obtain ⟨t⟩ := y
    rw [Bool.eq_iff_iff, beq_iff_eq, decide_eq_true_iff, Value.mk.injEq]
  rw [strictEqual, hbeq]
  split
  · rfl
  split
  · rw [form_eq_ok_iff.2 (allFit_append.2 ⟨hx.regular.normalCounts_fit_of_normal hx.normal,
      hy.regular.normalCounts_fit_of_normal hy.normal⟩), normalize_of_normal hx.normal,
      normalize_of_normal hy.normal, hterms]
    rfl
  · rename_i hw
    rw [decide_eq_false fun heq => hw (congrArg width heq)]

/-- Strict equality of two built values is equality, and never fails. So it is an equivalence of the
built values, and strictly equal values evaluate alike. -/
theorem strictEqual_iff_eq (hx : x.Built) (hy : y.Built) :
    x.strictEqual y = .ok (decide (x = y))
    ∧ (x.strictEqual y = .ok true → ∀ m : Model, m.evaluate x = m.evaluate y)
    ∧ Equivalence fun u v : { v : Value // v.Built } => u.1.strictEqual v.1 = .ok true := by
  have heq : ∀ {u v : Value}, u.Built → v.Built → (u.strictEqual v = .ok true ↔ u = v) := by
    intro u v hu hv
    rw [hu.stable.strictEqual_eq hv.stable, Except.ok.injEq, decide_eq_true_iff]
  refine ⟨hx.stable.strictEqual_eq hy.stable, fun h m => by rw [(heq hx hy).1 h],
    fun u => (heq u.2 u.2).2 rfl, fun {u v} h => (heq v.2 u.2).2 ((heq u.2 v.2).1 h).symm,
    fun {u v w} h h' => (heq u.2 w.2).2 (((heq u.2 v.2).1 h).trans ((heq v.2 w.2).1 h'))⟩

end

/-- The halves of a symbol put together are the symbol again. -/
theorem strictEqual_iff_eq_halves :
    let s : Value := ⟨.sym "x" 8⟩
    let halves : AlgebraCall :=
      .operation (.concat [⟨.extract 7 4 (.sym "x" 8)⟩, ⟨.extract 3 0 (.sym "x" 8)⟩])
    ∃ v, halves.run = .ok v ∧ v.Built ∧ s.Built ∧ v.strictEqual s = .ok true ∧ v = s := by
  intro s halves
  have hs : s.Built := .symbol (show 8 < Width.limit by decide) rfl
  have hslice : ∀ (high low : Nat) {v : Value}, s.extract high low = .ok v → v.Built :=
    fun high low _ h => .call (c := .operation (.extract s high low))
      (by simpa [AlgebraCall.args, Operation.args] using hs) h
  have hargs : ∀ u ∈ halves.args, u.Built := by
    simp only [halves, AlgebraCall.args, Operation.args, List.forall_mem_cons]
    exact ⟨hslice 7 4 rfl, hslice 3 0 rfl, by simp⟩
  have hv : s.Built := .call hargs rfl
  exact ⟨s, rfl, hv, hs, (strictEqual_iff_eq hv hs).1.trans (by simp), rfl⟩

end Value

end SymWord
