import SymWord.Proofs.Idempotence
import SymWord.Value.Arithmetic
import SymWord.Value.Bits

/-!
# Counts of values

A slice of a regular value forms counts that all fit, so where the range is right it is a value
(`extract_eq`, `testBit_eq`, `xnorReduce_eq`). A concatenation is one where the parts are not too
wide together (`concat_eq`), and a well-formed tree always gives one (`ofTree_eq`).
-/

namespace SymWord

namespace Term

variable {t acc : Term} {i : Nat}

/-- Takes one more bit of `t` into what the bits below it make. -/
def xnorStep (t acc : Term) (i : Nat) : Term :=
  .mkUnary .not (.mkBinary .xor acc (.mkExtract i i t))

theorem regular_bit (h : t.Regular) (hi : i < t.width) : (extract i i t).Regular :=
  ⟨h, Nat.le_refl i, hi⟩

theorem mkExtract_fills_bit (h : t.Regular) (hi : i < t.width) :
    Fills (mkExtract i i t) (ofBool true) := by
  refine (mkExtract_fills t (regular_bit h hi)).trans ?_
  rw [width_extract, Nat.sub_self]
  rfl

theorem xnorStep_fills (h : t.Regular) (hi : i < t.width) (hacc : Fills acc (ofBool true)) :
    Fills (xnorStep t acc i) (ofBool true) := by
  have hbit := mkExtract_fills_bit h hi
  have hxor : Fills (mkBinary .xor acc (mkExtract i i t)) acc :=
    mkBinary_fills ⟨hacc.regular, hbit.regular, hacc.width_eq.trans hbit.width_eq.symm⟩
  exact ((mkUnary_fills .not hxor.regular).trans hxor.width_eq).trans hacc.width_eq

theorem foldl_xnorStep_fills (h : t.Regular) : ∀ (is : List Nat) {acc : Term},
    (∀ i ∈ is, i < t.width) → Fills acc (ofBool true) →
      Fills (is.foldl (xnorStep t) acc) (ofBool true)
  | [], _, _, hacc => hacc
  | i :: is, _, his, hacc => by
    have hstep := xnorStep_fills h (his i List.mem_cons_self) hacc
    exact foldl_xnorStep_fills h is (fun j hj => his j (List.mem_cons_of_mem _ hj)) hstep

theorem isSet_regular (h : Fills t (ofBool true)) :
    (mkCompare .eq t (ofBool true)).Regular :=
  (mkCompare_fills ⟨h.regular, regular_ofBool true, h.width_eq⟩).regular

theorem mem_upper_bits (h : i ∈ List.range' 1 (t.width - 1)) : i < t.width := by
  have := List.mem_range'_1.1 h
  omega

end Term

namespace Value

open SymWord.Count

variable {u v : Value} {vs : List Value} {cs : List Count} {t : Term} {i n high low : Nat}

theorem counted_eq (hv : v.term.Regular) (h : AllFit cs) : v.counted cs = .ok v := by
  rw [counted, form_eq_ok_iff.2 (allFit_append.2 ⟨h, hv.widthCounts_fit⟩)]
  rfl

theorem exists_of_bind {α : Type} {r : Except Error α} {f : α → Except Error Value}
    (h : r >>= f = .ok u) : ∃ a, r = .ok a ∧ f a = .ok u := by
  cases r with
  | error e => cases h
  | ok a => exact ⟨a, rfl, h⟩

theorem eq_of_counted (h : v.counted cs = .ok u) :
    u = v ∧ AllFit (cs ++ v.term.widthCounts) := by
  obtain ⟨_, hform, hv⟩ := exists_of_bind h
  cases hv
  exact ⟨rfl, form_eq_ok_iff.1 hform⟩

theorem eq_of_extract (h : v.extract high low = .ok u) :
    low ≤ high ∧ high < v.width ∧ u = ⟨.mkExtract high low v.term⟩ := by
  rw [extract] at h
  split at h
  · cases h
  · exact ⟨by omega, by omega, (eq_of_counted h).1⟩

theorem eq_of_half (h : v.half = .ok n) : v.width = 2 * n := by
  rw [half] at h
  split at h
  · cases h
    omega
  · cases h

theorem eq_of_upperHalf (h : v.upperHalf = .ok u) :
    v.extract (v.width - 1) (v.width / 2) = .ok u := by
  obtain ⟨n, hhalf, h⟩ := exists_of_bind h
  obtain ⟨_, -, h⟩ := exists_of_bind h
  have hn := eq_of_half hhalf
  rwa [show n = v.width / 2 by omega] at h

theorem eq_of_lowerHalf (h : v.lowerHalf = .ok u) :
    v.extract (v.width / 2 - 1) 0 = .ok u := by
  obtain ⟨n, hhalf, h⟩ := exists_of_bind h
  obtain ⟨_, -, h⟩ := exists_of_bind h
  have hn := eq_of_half hhalf
  rwa [show n = v.width / 2 by omega] at h

theorem eq_of_topBit (h : v.topBit = .ok u) : v.testBit (v.width - 1) = .ok u := by
  obtain ⟨_, -, h⟩ := exists_of_bind h
  exact h

theorem eq_of_substitute {old new : Value} (h : v.substitute old new = .ok u) :
    old.width = new.width
      ∧ (if v.isConcrete then .ok v else ofTree (.replace old.term new.term v.term)) = .ok u := by
  rw [substitute, agree] at h
  split at h
  · exact ⟨‹_›, h⟩
  · cases h

theorem ofTree_eq (h : t.WellFormed) : ofTree t = .ok (ofTerm t) :=
  counted_eq (Term.normalize_fills t h.regular h.normalCounts_fit).regular h.normalCounts_fit

theorem extract_eq (h : v.term.Regular) (hle : low ≤ high) (hhigh : high < v.width) :
    v.extract high low = .ok ⟨.mkExtract high low v.term⟩ := by
  have hwf : (Term.extract high low v.term).Regular := ⟨h, hle, hhigh⟩
  rw [extract, if_neg (by omega)]
  exact counted_eq (Term.mkExtract_fills _ hwf).regular hwf.mkExtractCounts_fit

theorem concat_eq (h : (Term.concat (vs.map term)).Regular) :
    concat vs = .ok ⟨.mkConcat (vs.map term)⟩ := by
  cases vs with
  | nil => exact absurd rfl h.1
  | cons v vs =>
    have hfit := h.mkConcatCounts_fit
    exact counted_eq (Term.mkConcat_fills h).regular (allFit_append.1 hfit).1

theorem testBit_eq (h : v.term.Regular) (hi : i < v.width) :
    v.testBit i = .ok ⟨.mkCompare .eq (.mkExtract i i v.term) (.ofBool true)⟩ :=
  counted_eq (Term.isSet_regular (Term.mkExtract_fills_bit h hi))
    (Term.regular_bit h hi).mkExtractCounts_fit

theorem form_difference {a b : Nat} (h : b ≤ a) : form [.difference a b] = .ok () := if_pos h

theorem topBit_eq (h : v.term.Regular) : v.topBit = v.testBit (v.width - 1) := by
  have hpos : 1 ≤ v.width := h.valid.1
  rw [topBit, form_difference hpos]
  rfl

theorem upperHalf_eq (h : v.term.Regular) :
    v.upperHalf = v.half >>= fun n => v.extract (v.width - 1) n := by
  have hpos : 1 ≤ v.width := h.valid.1
  rw [upperHalf, form_difference hpos]
  rfl

theorem half_pos (h : v.term.Regular) (hn : v.half = .ok n) : 0 < n := by
  have hpos : 0 < v.width := h.valid.1
  have hwidth := eq_of_half hn
  omega

theorem lowerHalf_eq (h : v.term.Regular) :
    v.lowerHalf = v.half >>= fun n => v.extract (n - 1) 0 := by
  rw [lowerHalf]
  cases hn : v.half with
  | error e => rfl
  | ok n =>
    have hpos : 1 ≤ n := half_pos h hn
    simp only [bind, Except.bind]
    rw [form_difference hpos]

theorem xnorReduce_eq (h : v.term.Regular) :
    v.xnorReduce = .ok ⟨.mkCompare .eq ((List.range' 1 (v.width - 1)).foldl
      (Term.xnorStep v.term) (.mkExtract 0 0 v.term)) (.ofBool true)⟩ := by
  have hpos : 0 < v.width := h.valid.1
  have hbits := Term.foldl_xnorStep_fills h (List.range' 1 (v.width - 1))
    (fun i hi => Term.mem_upper_bits hi) (Term.mkExtract_fills_bit h hpos)
  refine counted_eq (Term.isSet_regular hbits) fun c hc => ?_
  obtain ⟨i, hi, hc⟩ := List.mem_flatMap.1 hc
  refine (Term.regular_bit h ?_).mkExtractCounts_fit c hc
  rcases List.mem_cons.1 hi with rfl | hi
  · exact hpos
  · exact Term.mem_upper_bits hi

end Value

end SymWord
