import SymWord.Proofs.NormalForm
import SymWord.Term.Counts

/-!
# Regular terms

The width of a zero extension stays at the greatest width when it would pass it. A regular term is
one in which that may have happened; otherwise it is made like a well-formed one. It need not stand
for a number of its width, but its widths fit together, and the rules of the normal form keep to
them: what they make of regular operands fills the place of the node, being regular and as wide.

The rules add up counts, and a sum may be too great. Over a regular node that can happen only to a
zero extension (`Regular.mkExtractCounts_fit`, `Regular.mkConcatCounts_fit`), and in a well-formed
tree not even there (`WellFormed.normalCounts_fit`). Where all counts fit, normalization keeps the
width of every regular tree (`normalize_fills`).
-/

namespace SymWord

/-- All of the counts can be formed. -/
def Count.AllFit (cs : List Count) : Prop := ∀ c ∈ cs, c.Fits

namespace Count

variable {c : Count} {cs ds : List Count}

@[simp] theorem allFit_nil : AllFit [] := by simp [AllFit]

@[simp] theorem allFit_cons : AllFit (c :: cs) ↔ c.Fits ∧ AllFit cs := List.forall_mem_cons

@[simp] theorem allFit_append : AllFit (cs ++ ds) ↔ AllFit cs ∧ AllFit ds :=
  List.forall_mem_append

theorem AllFit.whenSome {n : Option Nat} (h : AllFit cs) : AllFit (whenSome n cs) := by
  rw [Count.whenSome]
  split
  · exact h
  · exact allFit_nil

theorem form_eq_ok_iff : form cs = .ok () ↔ AllFit cs := by
  induction cs with
  | nil => simp [form]
  | cons c cs ih =>
    rw [form, allFit_cons]
    split
    · rename_i hc
      rw [ih, and_iff_right hc]
    · rename_i hc
      simp [hc]

end Count

namespace Term

open SymWord.Count

variable {s t u l r : Term} {ss ts : List Term} {c cw w bits high low : Nat}

mutual

/-- As for well-formed terms, but a zero extension may have stopped at the greatest width. -/
def Regular : Term → Prop
  | lit _ w => Width.Valid w
  | sym _ w => Width.Valid w
  | unary _ t => t.Regular
  | binary _ l r => l.Regular ∧ r.Regular ∧ l.width = r.width
  | compare _ l r => l.Regular ∧ r.Regular ∧ l.width = r.width
  | extract high low t => t.Regular ∧ low ≤ high ∧ high < t.width
  | concat ts => ts ≠ [] ∧ AllRegular ts ∧ totalWidth ts < Width.limit
  | zeroExtend _ t => t.Regular
  | signExtend bits t => t.Regular ∧ bits + t.width < Width.limit
  | apply _ ts w => AllRegular ts ∧ Width.Valid w
  | select _ t w => t.Regular ∧ Width.Valid w

def AllRegular : List Term → Prop
  | [] => True
  | t :: ts => t.Regular ∧ AllRegular ts

end

mutual

theorem WellFormed.regular : ∀ {t : Term}, t.WellFormed → t.Regular
  | lit _ _, h => h.2
  | sym _ _, h => h
  | unary _ t, h => WellFormed.regular (t := t) h
  | binary _ _ _, h | compare _ _ _, h => ⟨h.1.regular, h.2.1.regular, h.2.2⟩
  | extract _ _ _, h => ⟨h.1.regular, h.2⟩
  | concat _, h => ⟨h.1, h.2.1.regular, h.2.2⟩
  | zeroExtend _ _, h => h.1.regular
  | signExtend _ _, h => ⟨h.1.regular, h.2⟩
  | apply _ _ _, h => ⟨h.1.regular, h.2⟩
  | select _ _ _, h => ⟨h.1.regular, h.2⟩

theorem AllWellFormed.regular : ∀ {ts : List Term}, AllWellFormed ts → AllRegular ts
  | [], _ => trivial
  | _ :: _, h => ⟨h.1.regular, h.2.regular⟩

end

theorem allRegular_iff : AllRegular ts ↔ ∀ t ∈ ts, t.Regular := by
  induction ts with
  | nil => simp [AllRegular]
  | cons t ts ih => simp [AllRegular, ih]

theorem Regular.valid : ∀ {t : Term}, t.Regular → Width.Valid t.width
  | lit _ _, h => h
  | sym _ _, h => h
  | unary _ t, h => Regular.valid (t := t) h
  | binary _ _ _, h => h.1.valid
  | compare _ _ _, _ => Width.valid_one
  | extract high low t, h => by
    have hv := h.1.valid.2
    have hlt := h.2.2
    rw [width]
    exact ⟨by omega, by omega⟩
  | concat ts, h => by
    obtain ⟨hne, hts, hlt⟩ := h
    rw [width_concat]
    refine ⟨?_, hlt⟩
    rcases ts with _ | ⟨t, ts⟩
    · exact absurd rfl hne
    · have := hts.1.valid.1
      rw [totalWidth_cons]
      omega
  | zeroExtend bits t, h => by
    have hv := Regular.valid (t := t) h
    simp only [width, Width.extend, Width.Valid, Width.limit] at *
    omega
  | signExtend bits t, h => by
    have := h.1.valid.1
    rw [width_signExtend h.2]
    exact ⟨by omega, h.2⟩
  | apply _ _ _, h => h.2
  | select _ _ _, h => h.2

/-- The term is regular and as wide as the other one. -/
structure Fills (s t : Term) : Prop where
  regular : s.Regular
  width_eq : s.width = t.width

theorem Fills.refl (h : t.Regular) : Fills t t := ⟨h, rfl⟩

theorem Fills.trans (h : Fills s t) (h' : t.width = u.width) : Fills s u :=
  ⟨h.regular, h.width_eq.trans h'⟩

/-! ## Operator nodes -/

theorem mkUnary_fills (op : UnaryOp) (h : t.Regular) : Fills (mkUnary op t) t := by
  fun_cases mkUnary op t <;> exact ⟨h, rfl⟩

theorem trivial?_fills {op : BinaryOp} (h : t.Regular) (hw : t.width = w) (hcw : cw = w)
    (hu : trivial? op w t c cw = some u) : Fills u t := by
  subst hcw hw
  have hzero : Fills (zero t.width) t := ⟨h.valid, rfl⟩
  have hlit : Fills (lit c t.width) t := ⟨h.valid, rfl⟩
  have hnot := mkUnary_fills .not h
  revert hu
  fun_cases trivial? op t.width t c t.width <;> rintro ⟨⟩ <;>
    first | exact Fills.refl h | exact hzero | exact hlit | exact hnot

theorem mkBinaryLit_fills {op : BinaryOp} (h : t.Regular) (hw : t.width = w) (hcw : cw = w) :
    Fills (mkBinaryLit op w t c cw) t := by
  fun_induction mkBinaryLit op w t c cw with
  | case1 w c cw v vw =>
    subst hw
    exact ⟨h, rfl⟩
  | case2 w c cw op' x d dw u hu => exact trivial?_fills h hw hcw hu
  | case3 w c cw op' x d dw _ _ ih => exact (ih h.1 rfl hw.symm).trans rfl
  | case5 w c cw t _ _ u hu => exact trivial?_fills h hw hcw hu
  | case4 => exact ⟨⟨h, hcw ▸ hw ▸ h.valid, hw.trans hcw.symm⟩, rfl⟩
  | case6 => exact ⟨⟨h, hcw ▸ hw ▸ h.valid, hw.trans hcw.symm⟩, rfl⟩

theorem mkBinary_fills {op : BinaryOp} (h : (binary op l r).Regular) :
    Fills (mkBinary op l r) l := by
  obtain ⟨hl, hr, hw⟩ := id h
  have hzero : Fills (zero l.width) l := ⟨hl.valid, rfl⟩
  fun_cases mkBinary op l r with
  | case1 => exact ⟨hl, rfl⟩
  | case2 => exact (mkBinaryLit_fills hr hw.symm rfl).trans hw.symm
  | case3 _ a w =>
    fun_cases mkLitBinary op a w r with
    | case1 => exact (mkUnary_fills .neg hr).trans hw.symm
    | case2 | case3 | case4 | case5 => exact hzero
    | case6 | case7 => exact ⟨h, rfl⟩
  | case4 | case5 => exact mkBinaryLit_fills hl rfl (by first | rfl | exact hw.symm)
  | case6 | case7 => exact hzero
  | case8 | case9 => exact Fills.refl hl
  | case10 | case11 => exact ⟨h, rfl⟩

theorem regular_ofBool (b : Bool) : (ofBool b).Regular := Width.valid_one

theorem compareLit_fills {op : Comparison} (h : (compare op t (lit c cw)).Regular) :
    Fills (compareLit op t c cw) (compare op t (lit c cw)) := by
  fun_cases compareLit op t c cw with
  | case1 hop => exact ⟨h.1, hop.2⟩
  | case2 hop => exact (mkUnary_fills .not h.1).trans hop.2
  | case3 => exact Fills.refl h

theorem mkCompareLit_fills {op : Comparison} (h : (compare op t (lit c cw)).Regular) :
    Fills (mkCompareLit op t c cw) (compare op t (lit c cw)) := by
  fun_induction mkCompareLit op t c cw with
  | case1 => exact ⟨regular_ofBool _, rfl⟩
  | case2 c cw x d dw hop ih => exact (ih ⟨h.1.1, h.1.1.valid, rfl⟩).trans rfl
  | case4 c cw x d dw hop ih => exact (ih ⟨h.1.1, h.1.1.valid, rfl⟩).trans rfl
  | case6 c cw u x hop ih =>
    have hx : x.Regular := h.1
    exact (ih ⟨hx, hx.valid, rfl⟩).trans rfl
  | case3 | case5 | case7 | case8 => exact compareLit_fills h

theorem mkCompare_fills {op : Comparison} (h : (compare op l r).Regular) :
    Fills (mkCompare op l r) (compare op l r) := by
  fun_cases mkCompare op l r with
  | case1 | case4 => exact ⟨regular_ofBool _, rfl⟩
  | case2 => exact (mkCompareLit_fills ⟨h.2.1, h.1, h.2.2.symm⟩).trans rfl
  | case3 => exact mkCompareLit_fills h
  | case5 => exact Fills.refl h

/-! ## Widths -/

theorem spanCounts_fit (h : low ≤ high) (hlt : high + 1 < Width.limit) :
    AllFit (spanCounts high low) := by
  simp only [spanCounts, allFit_cons, allFit_nil, Fits, and_true]
  exact ⟨h, by omega⟩

mutual

theorem Regular.widthCounts_fit : ∀ {t : Term}, t.Regular → AllFit t.widthCounts
  | lit _ _, _ | sym _ _, _ | compare _ _ _, _ | apply _ _ _, _ | select _ _ _, _ => allFit_nil
  | unary _ t, h | zeroExtend _ t, h => Regular.widthCounts_fit (t := t) h
  | binary _ _ _, h => h.1.widthCounts_fit
  | extract high low t, h => by
    have hlt := h.1.valid.2
    have hhigh := h.2.2
    exact spanCounts_fit h.2.1 (by omega)
  | concat ts, h => h.2.1.totalCounts_fit (by simpa using h.2.2)
  | signExtend _ _, h => h.1.widthCounts_fit

theorem AllRegular.totalCounts_fit : ∀ {ts : List Term} {n : Nat}, AllRegular ts →
    n + totalWidth ts < Width.limit → AllFit (totalCounts n ts)
  | [], _, _, _ => allFit_nil
  | t :: ts, n, h, hlt => by
    rw [totalWidth_cons] at hlt
    simp only [totalCounts, allFit_append, allFit_cons, Fits]
    exact ⟨h.1.widthCounts_fit, by omega, h.2.totalCounts_fit (by omega)⟩

end

theorem totalWidth_lt_of_fit : ∀ {ts : List Term} {n : Nat}, n < Width.limit →
    AllFit (totalCounts n ts) → n + totalWidth ts < Width.limit
  | [], _, hn, _ => hn
  | t :: ts, n, _, h => by
    simp only [totalCounts, allFit_append, allFit_cons, Fits] at h
    have ih := totalWidth_lt_of_fit h.2.1 h.2.2
    rw [totalWidth_cons]
    omega

/-! ## Extensions -/

theorem mkZeroExtend_fills (h : t.Regular) (hfit : AllFit (mkZeroExtendCounts bits t)) :
    Fills (mkZeroExtend bits t) (zeroExtend bits t) := by
  have hv := h.valid
  revert hfit
  fun_cases mkZeroExtend bits t with
  | case1 hbits =>
    intro _
    refine ⟨h, ?_⟩
    simp only [width, Width.extend, Width.Valid, Width.limit] at *
    omega
  | case2 hbits v w =>
    intro hfit
    simp only [mkZeroExtendCounts, if_neg hbits, allFit_cons, Fits] at hfit
    refine ⟨⟨by omega, hfit.1⟩, ?_⟩
    rw [const, width, width, width, Nat.add_comm, Width.extend_of_lt (by omega)]
  | case3 hbits bits' x =>
    intro _
    have hx := Regular.valid (t := x) h
    refine ⟨h, ?_⟩
    simp only [width, Width.extend, Width.Valid, Width.limit] at *
    omega
  | case4 => exact fun _ => Fills.refl h

theorem mkZeroExtendCounts_fit (h : bits + t.width < Width.limit) :
    AllFit (mkZeroExtendCounts bits t) := by
  unfold mkZeroExtendCounts
  split
  · exact allFit_nil
  cases t with
  | lit v w =>
    simp only [allFit_cons, allFit_nil, Fits, and_true]
    rw [Nat.add_comm]
    exact h
  | zeroExtend bits' x =>
    simp only [allFit_cons, allFit_nil, Fits, and_true, width, Width.extend, Width.limit] at *
    omega
  | _ => exact allFit_nil

theorem widthCounts_mkZeroExtend (bits : Nat) (t : Term) :
    (mkZeroExtend bits t).widthCounts = t.widthCounts := by
  fun_cases mkZeroExtend bits t <;> rfl

theorem mkSignExtend_fills (h : (signExtend bits t).Regular) :
    Fills (mkSignExtend bits t) (signExtend bits t) := by
  have hlt := h.2
  unfold mkSignExtend
  split
  · rename_i hbits
    subst hbits
    exact ⟨h.1, by rw [width_signExtend hlt, Nat.zero_add]⟩
  split
  · rename_i v w
    have hw : 0 < w := h.1.1
    rw [Nat.add_comm w]
    exact ⟨⟨by omega, hlt⟩, (width_signExtend hlt).symm⟩
  · exact Fills.refl h

theorem mkSignExtendCounts_fit (h : bits + t.width < Width.limit) :
    AllFit (mkSignExtendCounts bits t) := by
  unfold mkSignExtendCounts
  split
  · exact allFit_nil
  split
  · simp only [allFit_cons, allFit_nil, Fits, and_true]
    rw [Nat.add_comm]
    exact h
  · exact allFit_nil

/-! ## Concatenations -/

theorem slice_fills (h : (extract high low t).Regular) :
    Fills (slice high low t) (extract high low t) := by
  fun_cases slice high low t with
  | case1 hwhole =>
    obtain ⟨rfl, hw⟩ := hwhole
    exact ⟨h.1, by rw [← hw, width_extract, Nat.sub_zero]⟩
  | case2 => exact Fills.refl h

theorem sliceCounts_fit (h : (extract high low t).Regular) : AllFit (sliceCounts high low t) := by
  have hlt := h.1.valid.2
  have hhigh := h.2.2
  simp only [sliceCounts, allFit_append]
  refine ⟨⟨h.1.widthCounts_fit, ?_⟩, ?_⟩
  · split
    · simp only [allFit_cons, allFit_nil, Fits, and_true]
      omega
    · exact allFit_nil
  · split
    · exact allFit_nil
    · exact spanCounts_fit h.2.1 (by omega)

/-- Two extractions that meet lie in their operand together. -/
theorem regular_meeting {high' low' : Nat} (h : (extract high low t).Regular)
    (h' : (extract high' low' t).Regular) (hmeet : low = high' + 1) :
    (extract high low' t).Regular := by
  have hle := h.2.1
  have hle' := h'.2.1
  exact ⟨h.1, by omega, h.2.2⟩

/-- Regular, or a literal, which may be too wide. -/
def Sized (t : Term) : Prop := t.Regular ∨ t.isLit = true ∧ 0 < t.width

theorem Sized.width_pos (h : t.Sized) : 0 < t.width := h.elim (fun h => h.valid.1) (fun h => h.2)

theorem Sized.regular (h : t.Sized) (hlit : t.isLit = false) : t.Regular := by
  rcases h with h | ⟨h, -⟩
  · exact h
  · rw [hlit] at h
    cases h

theorem Sized.regular_of_lt (h : t.Sized) (hlt : t.width < Width.limit) : t.Regular := by
  rcases h with h | ⟨hlit, hpos⟩
  · exact h
  · cases t with
    | lit => exact ⟨hpos, hlt⟩
    | _ => cases hlit

theorem AllRegular.sized (h : AllRegular ts) : ∀ t ∈ ts, t.Sized :=
  fun t ht => .inl (allRegular_iff.1 h t ht)

theorem allRegular_of_lt : ∀ {ts : List Term}, (∀ t ∈ ts, t.Sized) →
    totalWidth ts < Width.limit → AllRegular ts
  | [], _, _ => trivial
  | t :: ts, h, hlt => by
    rw [totalWidth_cons] at hlt
    rw [List.forall_mem_cons] at h
    exact ⟨h.1.regular_of_lt (by omega), allRegular_of_lt h.2 (by omega)⟩

theorem join?_sized (hu : u.Sized) (hl : l.Sized) (hs : join? u l = some s) :
    s.Sized ∧ s.width = u.width + l.width := by
  revert hs
  fun_cases join? u l with
  | case1 a w b w' =>
    rintro ⟨⟩
    have hpos : 0 < w := hu.width_pos
    exact ⟨.inr ⟨rfl, by rw [const, width]; omega⟩, rfl⟩
  | case2 high low t high' low' t' hmeet =>
    rintro ⟨⟩
    obtain ⟨rfl, hmeet⟩ := hmeet
    have hu := hu.regular rfl
    have hl := hl.regular rfl
    have hslice := slice_fills (regular_meeting hu hl hmeet)
    have hle := hu.2.1
    have hle' := hl.2.1
    refine ⟨.inl hslice.regular, ?_⟩
    rw [hslice.width_eq, width_extract, width_extract, width_extract]
    omega
  | case3 | case4 => rintro ⟨⟩

theorem joinCounts_fit_iff (hu : u.Regular) (hl : l.Regular) :
    AllFit (joinCounts u l) ↔ ∀ s, join? u l = some s → s.Regular := by
  fun_cases join? u l with
  | case1 a w b w' =>
    have hpos : 0 < w := hu.1
    simp only [joinCounts, allFit_cons, allFit_nil, Fits, and_true, Option.some.injEq, forall_eq']
    exact ⟨fun hlt => ⟨by omega, hlt⟩, fun h => h.2⟩
  | case2 high low t high' low' t' hmeet =>
    obtain ⟨rfl, hmeet⟩ := hmeet
    have hboth := regular_meeting hu hl hmeet
    have hlt := hl.1.valid.2
    have hhigh := hl.2.2
    simp only [joinCounts, if_true, if_pos hmeet, allFit_cons, Fits, Option.some.injEq, forall_eq']
    exact ⟨fun _ => (slice_fills hboth).regular, fun _ => ⟨by omega, sliceCounts_fit hboth⟩⟩
  | case3 high low t high' low' t' hapart =>
    refine ⟨fun _ s hs => (by cases hs), fun _ => ?_⟩
    rw [joinCounts]
    split
    · rename_i heq
      have hlt := hl.1.valid.2
      have hhigh := hl.2.2
      rw [if_neg fun hmeet => hapart ⟨heq, hmeet⟩, allFit_cons, Fits]
      exact ⟨by omega, allFit_nil⟩
    · exact allFit_nil
  | case4 u l hlit hext =>
    refine ⟨fun _ s hs => (by cases hs), fun _ => ?_⟩
    rw [joinCounts]
    · exact allFit_nil
    · exact hlit
    · exact hext

theorem pushPart_sized {parts : List Term} (hp : ∀ s ∈ parts, s.Sized) (ht : t.Sized) :
    (∀ s ∈ pushPart parts t, s.Sized)
      ∧ totalWidth (pushPart parts t) = totalWidth parts + t.width := by
  fun_cases pushPart parts t with
  | case1 => exact ⟨by simpa using ht, Nat.add_comm _ _⟩
  | case2 last rest u hu =>
    rw [List.forall_mem_cons] at hp
    obtain ⟨hsized, hwidth⟩ := join?_sized hp.1 ht hu
    refine ⟨List.forall_mem_cons.2 ⟨hsized, hp.2⟩, ?_⟩
    rw [totalWidth_cons, totalWidth_cons, hwidth]
    omega
  | case3 last rest =>
    exact ⟨List.forall_mem_cons.2 ⟨ht, hp⟩, by rw [totalWidth_cons, Nat.add_comm]⟩

theorem pushCounts_fit_iff {parts : List Term} (hp : AllRegular parts) (ht : t.Regular) :
    AllFit (pushCounts parts t) ↔ AllRegular (pushPart parts t) := by
  fun_cases pushPart parts t with
  | case1 => exact ⟨fun _ => ⟨ht, trivial⟩, fun _ => allFit_nil⟩
  | case2 last rest u hu =>
    rw [pushCounts, joinCounts_fit_iff hp.1 ht, hu]
    exact ⟨fun h => ⟨h u rfl, hp.2⟩, fun h s hs => Option.some.inj hs ▸ h.1⟩
  | case3 last rest hnone =>
    rw [pushCounts, joinCounts_fit_iff hp.1 ht, hnone]
    exact ⟨fun _ => ⟨ht, hp⟩, fun _ s hs => by cases hs⟩

/-- A part only gets wider while others are pushed. -/
theorem allRegular_of_pushPart {parts : List Term} (hp : ∀ s ∈ parts, s.Sized) (ht : t.Sized)
    (h : AllRegular (pushPart parts t)) : AllRegular parts := by
  revert h
  fun_cases pushPart parts t with
  | case1 => exact fun _ => trivial
  | case2 last rest u hu =>
    intro h
    rw [List.forall_mem_cons] at hp
    have hwidth := (join?_sized hp.1 ht hu).2
    have hlt := h.1.valid.2
    exact ⟨hp.1.regular_of_lt (by omega), h.2⟩
  | case3 => exact fun h => h.2

theorem foldl_pushPart_sized : ∀ (ts : List Term) {parts : List Term}, (∀ s ∈ parts, s.Sized) →
    (∀ t ∈ ts, t.Sized) → (∀ s ∈ ts.foldl pushPart parts, s.Sized)
      ∧ totalWidth (ts.foldl pushPart parts) = totalWidth parts + totalWidth ts
      ∧ (AllRegular (ts.foldl pushPart parts) → AllRegular parts)
  | [], _, hp, _ => ⟨hp, rfl, id⟩
  | t :: ts, parts, hp, h => by
    rw [List.forall_mem_cons] at h
    obtain ⟨hpush, hwidth⟩ := pushPart_sized hp h.1
    obtain ⟨hfold, hcount, hback⟩ := foldl_pushPart_sized ts hpush h.2
    refine ⟨hfold, ?_, fun hall => allRegular_of_pushPart hp h.1 (hback hall)⟩
    rw [List.foldl_cons, hcount, hwidth, totalWidth_cons]
    omega

theorem joinPartsCounts_fit_iff : ∀ (ts : List Term) {parts : List Term}, AllRegular parts →
    AllRegular ts → (AllFit (joinPartsCounts parts ts) ↔ AllRegular (ts.foldl pushPart parts))
  | [], _, hp, _ => ⟨fun _ => hp, fun _ => allFit_nil⟩
  | t :: ts, parts, hp, h => by
    have hpush := (pushPart_sized hp.sized (.inl h.1)).1
    rw [joinPartsCounts, allFit_append, pushCounts_fit_iff hp h.1, List.foldl_cons]
    constructor
    · exact fun hfit => (joinPartsCounts_fit_iff ts hfit.1 h.2).1 hfit.2
    · intro hfold
      have hall := (foldl_pushPart_sized ts hpush h.2.sized).2.2 hfold
      exact ⟨hall, (joinPartsCounts_fit_iff ts hall h.2).2 hfold⟩

theorem allRegular_append : AllRegular (ss ++ ts) ↔ AllRegular ss ∧ AllRegular ts := by
  simp only [allRegular_iff, List.forall_mem_append]

theorem allRegular_reverse : AllRegular ts.reverse ↔ AllRegular ts := by
  simp only [allRegular_iff, List.mem_reverse]

theorem flatten_regular (h : t.Regular) :
    AllRegular (flatten t) ∧ totalWidth (flatten t) = t.width := by
  fun_cases flatten t with
  | case1 ts => exact ⟨h.2.1, rfl⟩
  | case2 => exact ⟨⟨h, trivial⟩, rfl⟩

theorem flatMap_flatten_regular (h : AllRegular ts) :
    AllRegular (ts.flatMap flatten) ∧ totalWidth (ts.flatMap flatten) = totalWidth ts := by
  induction ts with
  | nil => exact ⟨trivial, rfl⟩
  | cons t ts ih =>
    obtain ⟨ht, hwidth⟩ := flatten_regular h.1
    obtain ⟨hts, hcount⟩ := ih h.2
    rw [List.flatMap_cons, totalWidth_append, totalWidth_cons, hwidth, hcount]
    exact ⟨allRegular_append.2 ⟨ht, hts⟩, rfl⟩

/-- Opening and joining parts keeps all their bits, whether the counts fit or not. -/
theorem joinParts_sized (h : AllRegular ts) :
    (∀ t ∈ joinParts ts, t.Sized) ∧ totalWidth (joinParts ts) = totalWidth ts := by
  obtain ⟨hflat, hwidth⟩ := flatMap_flatten_regular h
  have hnil : ∀ s ∈ ([] : List Term), s.Sized := by simp
  obtain ⟨hfold, hcount, -⟩ := foldl_pushPart_sized _ hnil hflat.sized
  rw [totalWidth_nil, Nat.zero_add, hwidth] at hcount
  rw [joinParts, totalWidth_reverse, hcount]
  exact ⟨fun t ht => hfold t (List.mem_reverse.1 ht), rfl⟩

theorem joinParts_fit_iff (h : AllRegular ts) :
    AllFit (joinPartsCounts [] (ts.flatMap flatten)) ↔ AllRegular (joinParts ts) := by
  rw [joinParts, allRegular_reverse]
  exact joinPartsCounts_fit_iff _ trivial (flatMap_flatten_regular h).1

theorem AllRegular.totalWidth_pos (h : AllRegular ts) (hne : ts ≠ []) : 0 < totalWidth ts := by
  cases ts with
  | nil => exact absurd rfl hne
  | cons t ts =>
    have := h.1.valid.1
    rw [totalWidth_cons]
    omega

theorem width_eq_min {n : Nat} (h : t.Regular) (hw : t.width = n) :
    t.width = min n (Width.limit - 1) := by
  have hlt := h.valid.2
  omega

theorem mkZeroExtend_concat (h : bits ≠ 0) :
    mkZeroExtend bits (concat ts) = zeroExtend bits (concat ts) := by
  simp [mkZeroExtend, h]

/-- A concatenation has the width of its parts together, or the greatest width where a zero in front
has made it an extension. -/
theorem mkConcat_regular (h : AllRegular ts) (hne : ts ≠ [])
    (hfit : AllFit (mkConcatCounts ts ++ (mkConcat ts).widthCounts)) :
    (mkConcat ts).Regular ∧ (mkConcat ts).width = min (totalWidth ts) (Width.limit - 1) := by
  simp only [mkConcatCounts, allFit_append] at hfit
  obtain ⟨⟨hjoin, hzeros⟩, hwidth⟩ := hfit
  have hparts := (joinParts_fit_iff h).1 hjoin
  have hcount := (joinParts_sized h).2
  have hpos := h.totalWidth_pos hne
  rw [← hcount] at hpos ⊢
  -- A concatenation that is left is counted for its width.
  have hcat : ∀ us, us ≠ [] → AllRegular us → AllFit (totalCounts 0 us) → (concat us).Regular :=
    fun us hus hall hus' => ⟨hus, hall, by simpa using totalWidth_lt_of_fit (by decide) hus'⟩
  revert hwidth
  fun_cases mkConcat ts with
  | case1 t heq =>
    rw [heq] at hparts ⊢
    exact fun _ => ⟨hparts.1, width_eq_min hparts.1 (Nat.add_zero _).symm⟩
  | case2 t u heq hzero =>
    rw [heq] at hparts hzeros ⊢
    simp only [hzero, if_true] at hzeros
    obtain ⟨hregular, hw⟩ := mkZeroExtend_fills hparts.2.1 hzeros
    exact fun _ => ⟨hregular, by rw [hw, width, Width.extend, totalWidth_cons, totalWidth_cons,
      totalWidth_nil, Nat.add_zero]⟩
  | case4 t us hnil hone heq hzero =>
    rw [heq] at hparts ⊢
    intro hwidth
    have hpos : 0 < t.width := hparts.1.valid.1
    rw [mkZeroExtend_concat (by omega)] at hwidth ⊢
    have hus := hcat us hnil hparts.2 hwidth
    exact ⟨hus, by rw [width, Width.extend, totalWidth_cons, width_concat]⟩
  | case3 _ _ heq | case5 _ _ _ _ heq =>
    rw [heq] at hparts ⊢
    intro hwidth
    have hregular := hcat _ (by simp) hparts hwidth
    exact ⟨hregular, width_eq_min hregular rfl⟩
  | case6 heq =>
    rw [heq] at hpos
    exact absurd hpos (by simp)

theorem Regular.mkConcatCounts_fit (h : (concat ts).Regular) :
    AllFit (mkConcatCounts ts ++ (mkConcat ts).widthCounts) := by
  obtain ⟨hsized, hcount⟩ := joinParts_sized h.2.1
  have hlt := h.2.2
  rw [← hcount] at hlt
  have hparts := allRegular_of_lt hsized hlt
  have hcat : AllFit (concat (joinParts ts)).widthCounts :=
    hparts.totalCounts_fit (by simpa using hlt)
  simp only [mkConcatCounts, allFit_append]
  refine ⟨⟨(joinParts_fit_iff h.2.1).2 hparts, ?_⟩, ?_⟩
  · split
    · rename_i t u heq
      rw [heq] at hlt
      split
      · exact mkZeroExtendCounts_fit (by simpa using hlt)
      · exact allFit_nil
    · exact allFit_nil
  · fun_cases mkConcat ts with
    | case1 t heq =>
      rw [heq] at hparts
      exact hparts.1.widthCounts_fit
    | case2 t u heq =>
      rw [heq] at hparts
      rw [widthCounts_mkZeroExtend]
      exact hparts.2.1.widthCounts_fit
    | case4 t us hnil hone heq =>
      rw [heq] at hparts hlt
      rw [totalWidth_cons] at hlt
      rw [widthCounts_mkZeroExtend]
      exact hparts.2.totalCounts_fit (by omega)
    | case3 _ _ heq | case5 _ _ _ _ heq | case6 heq =>
      rw [heq] at hcat
      exact hcat

theorem mkConcat_fills (h : (concat ts).Regular) : Fills (mkConcat ts) (concat ts) := by
  obtain ⟨hregular, hwidth⟩ := mkConcat_regular h.2.1 h.1 h.mkConcatCounts_fit
  have hlt := h.2.2
  exact ⟨hregular, by rw [hwidth, width_concat]; omega⟩

/-! ## Extractions -/

theorem regular_nested {high' low' : Nat}
    (h : (extract high low (extract high' low' t)).Regular) :
    (extract (high + low') (low + low') t).Regular := by
  obtain ⟨⟨ht, hle', hlt'⟩, hle, hlt⟩ := h
  rw [width_extract] at hlt
  exact ⟨ht, by omega, by omega⟩

/-- What is taken from below the top of an extension, with the zeros above it. -/
theorem regular_across (h : (extract high low (zeroExtend bits t)).Regular) (hhigh : t.width ≤ high)
    (hs : Fills s (extract (t.width - 1) low t)) (hlow : low < t.width) :
    (concat [zero (high - t.width + 1), s]).Regular := by
  have hlt := h.valid.2
  have hw := hs.width_eq
  rw [width_extract] at hlt hw
  refine ⟨by simp, ⟨⟨by omega, by omega⟩, hs.regular, trivial⟩, ?_⟩
  rw [totalWidth_cons, totalWidth_cons, totalWidth_nil, width_zero, hw]
  omega

/-- What an extraction takes of a part above `n` bits that it meets. -/
theorem regular_part (h : t.Regular) {n : Nat} (hle : low ≤ high)
    (hmeet : ¬ (n + t.width ≤ low ∨ high < n)) :
    (extract (min high (n + t.width - 1) - n) (max low n - n) t).Regular := by
  have := h.valid.1
  exact ⟨h, by omega, by omega⟩

/-- The parts are regular and count the bits from `low` up to `high` or the top of `ts`. -/
structure FillsSlice (high low : Nat) (ss ts : List Term) : Prop where
  regular : AllRegular ss
  totalWidth_eq : totalWidth ss = min (high + 1) (totalWidth ts) - low

theorem FillsSlice.fills (hs : FillsSlice high low ss ts)
    (h : (extract high low (concat ts)).Regular) :
    Fills (concat ss) (extract high low (concat ts)) := by
  obtain ⟨hcat, hle, hhigh⟩ := h
  have hlt := hcat.2.2
  have hw := hs.totalWidth_eq
  rw [width_concat] at hhigh
  refine ⟨⟨?_, hs.regular, by omega⟩, by rw [width_concat, width_extract]; omega⟩
  rintro rfl
  rw [totalWidth_nil] at hw
  omega

mutual

theorem mkExtract_fills : ∀ (t : Term) {high low : Nat}, (extract high low t).Regular →
    Fills (mkExtract high low t) (extract high low t) := by
  intro t high low h
  by_cases hwhole : low = 0 ∧ high + 1 = t.width
  · rw [mkExtract.eq_def, if_pos hwhole]
    exact ⟨h.1, by rw [width_extract, hwhole.1, ← hwhole.2, Nat.sub_zero]⟩
  rw [mkExtract.eq_def, if_neg hwhole]
  match t, h with
  | lit v w, h => exact ⟨h.valid, rfl⟩
  | extract high' low' x, h =>
    refine (mkExtract_fills x (regular_nested h)).trans ?_
    rw [width_extract, width_extract]
    omega
  | concat ts, h =>
    have hpieces := (pieces_fills ts h.2.1 h.1.2.1).fills h
    exact (mkConcat_fills hpieces.regular).trans hpieces.width_eq
  | zeroExtend bits x, h =>
    simp only
    split
    · rename_i hhigh
      exact (mkExtract_fills x ⟨h.1, h.2.1, hhigh⟩).trans rfl
    · rename_i hhigh
      split
      · exact ⟨h.valid, rfl⟩
      · rename_i hlow
        have hin : Fills _ (extract (x.width - 1) low x) :=
          mkExtract_fills x ⟨h.1, by omega, by omega⟩
        have hacross := regular_across h (by omega) hin (by omega)
        refine (mkConcat_fills hacross).trans ?_
        have hw := hin.width_eq
        rw [width_extract] at hw
        rw [width_concat, totalWidth_cons, totalWidth_cons, totalWidth_nil, width_zero, hw,
          width_extract]
        omega
  | sym _ _, h | unary _ _, h | binary _ _ _, h | compare _ _ _, h | signExtend _ _, h
  | apply _ _ _, h | select _ _ _, h => exact Fills.refl h

theorem pieces_fills : ∀ (ts : List Term) {high low : Nat}, low ≤ high → AllRegular ts →
    FillsSlice high low (pieces high low ts) ts
  | [], _, _, _, _ => ⟨trivial, by simp [pieces]⟩
  | t :: ts, high, low, hle, h => by
    have hpos := h.1.valid.1
    have ih := pieces_fills ts hle h.2
    have hcount := ih.totalWidth_eq
    rw [pieces_cons hpos]
    split
    · refine ⟨ih.regular, ?_⟩
      rw [hcount, totalWidth_cons]
      omega
    · rename_i hmeet
      have hpart := mkExtract_fills t (regular_part h.1 hle hmeet)
      refine ⟨⟨hpart.regular, ih.regular⟩, ?_⟩
      rw [totalWidth_cons, totalWidth_cons, hpart.width_eq, width_extract, hcount]
      omega

end

mutual

theorem Regular.mkExtractCounts_fit : ∀ {t : Term} {high low : Nat}, (extract high low t).Regular →
    AllFit (mkExtractCounts high low t) := by
  intro t high low h
  rw [mkExtractCounts.eq_def, allFit_append]
  refine ⟨sliceCounts_fit h, ?_⟩
  split
  · exact allFit_nil
  match t, h with
  | extract high' low' x, h =>
    have hnested := regular_nested h
    have hlt := hnested.1.valid.2
    have hhigh := hnested.2.2
    have hle := h.2.1
    simp only [allFit_cons, Fits]
    exact ⟨by omega, by omega, hnested.mkExtractCounts_fit⟩
  | concat ts, h =>
    have hpieces := ((pieces_fills ts h.2.1 h.1.2.1).fills h).regular.mkConcatCounts_fit
    rw [allFit_append] at hpieces ⊢
    exact ⟨h.1.2.1.pieceCounts_fit h.2.1, hpieces.1⟩
  | zeroExtend bits x, h =>
    simp only
    split
    · rename_i hhigh
      exact Regular.mkExtractCounts_fit (t := x) ⟨h.1, h.2.1, hhigh⟩
    split
    · exact allFit_nil
    · rename_i hhigh hlow
      have hin : (extract (x.width - 1) low x).Regular := ⟨h.1, by omega, by omega⟩
      have hacross := (regular_across h (by omega) (mkExtract_fills x hin)
        (by omega)).mkConcatCounts_fit
      rw [allFit_append] at hacross ⊢
      exact ⟨hin.mkExtractCounts_fit, hacross.1⟩
  | lit _ _, _ | sym _ _, _ | unary _ _, _ | binary _ _ _, _ | compare _ _ _, _
  | signExtend _ _, _ | apply _ _ _, _ | select _ _ _, _ => exact allFit_nil

theorem AllRegular.pieceCounts_fit : ∀ {ts : List Term} {high low : Nat}, AllRegular ts →
    low ≤ high → AllFit (pieceCounts high low ts)
  | [], _, _, _, _ => allFit_nil
  | t :: ts, high, low, h, hle => by
    have hpos := h.1.valid.1
    simp only [pieceCounts, allFit_append, allFit_cons, Fits]
    refine ⟨h.2.pieceCounts_fit hle, by omega, ?_⟩
    split
    · exact allFit_nil
    · rename_i hmeet
      rw [allFit_cons, Fits]
      exact ⟨by omega, (regular_part h.1 hle (by omega)).mkExtractCounts_fit⟩

end

/-! ## Normalization -/

theorem mkBinaryCounts_fit {op : BinaryOp} (hl : l.Regular) (hr : r.Regular) :
    AllFit (mkBinaryCounts op l r) := by
  unfold mkBinaryCounts
  rw [allFit_append]
  refine ⟨hl.widthCounts_fit, ?_⟩
  split
  · exact allFit_nil
  · rename_i c w
    unfold mkLitBinaryCounts
    split
    · split
      · split
        · exact hr.widthCounts_fit
        · exact allFit_nil
      · split
        · exact hr.1.widthCounts_fit
        · exact allFit_nil
      · exact allFit_nil
    split
    · exact hr.widthCounts_fit
    · exact allFit_nil
  · exact allFit_nil

theorem mkCompareCounts_fit (hl : l.Regular) (hr : r.Regular) : AllFit (mkCompareCounts l r) := by
  unfold mkCompareCounts
  rw [allFit_append]
  refine ⟨hl.widthCounts_fit, ?_⟩
  split
  · exact allFit_nil
  · exact hr.widthCounts_fit
  · exact allFit_nil

theorem regular_concat_of_widths (h : (concat ts).Regular) (hs : AllRegular ss)
    (hw : ss.map width = ts.map width) : (concat ss).Regular := by
  refine ⟨?_, hs, by rw [totalWidth_congr hw]; exact h.2.2⟩
  rintro rfl
  exact h.1 (List.map_eq_nil_iff.1 hw.symm)

mutual

theorem normalize_fills : ∀ (t : Term), t.Regular → AllFit t.normalCounts → Fills t.normalize t
  | lit _ _, h, _ => ⟨h, rfl⟩
  | sym _ _, h, _ => ⟨h, rfl⟩
  | unary op t, h, hfit => by
    rw [normalCounts, allFit_append] at hfit
    have ht := normalize_fills t h hfit.1
    exact (mkUnary_fills op ht.regular).trans ht.width_eq
  | binary op l r, h, hfit => by
    simp only [normalCounts, allFit_append] at hfit
    have hl := normalize_fills l h.1 hfit.1.1
    have hr := normalize_fills r h.2.1 hfit.1.2
    have hw : l.normalize.width = r.normalize.width := by rw [hl.width_eq, hr.width_eq, h.2.2]
    exact (mkBinary_fills ⟨hl.regular, hr.regular, hw⟩).trans hl.width_eq
  | compare op l r, h, hfit => by
    simp only [normalCounts, allFit_append] at hfit
    have hl := normalize_fills l h.1 hfit.1.1
    have hr := normalize_fills r h.2.1 hfit.1.2
    have hw : l.normalize.width = r.normalize.width := by rw [hl.width_eq, hr.width_eq, h.2.2]
    exact (mkCompare_fills ⟨hl.regular, hr.regular, hw⟩).trans rfl
  | extract high low t, h, hfit => by
    rw [normalCounts, allFit_append] at hfit
    have ht := normalize_fills t h.1 hfit.1
    exact (mkExtract_fills _ ⟨ht.regular, h.2.1, ht.width_eq ▸ h.2.2⟩).trans rfl
  | concat ts, h, hfit => by
    rw [normalCounts, allFit_append] at hfit
    obtain ⟨hts, hw⟩ := normalizeList_fills ts h.2.1 hfit.1
    exact (mkConcat_fills (regular_concat_of_widths h hts hw)).trans (totalWidth_congr hw)
  | zeroExtend bits t, h, hfit => by
    rw [normalCounts, allFit_append] at hfit
    have ht := normalize_fills t h hfit.1
    refine (mkZeroExtend_fills ht.regular hfit.2).trans ?_
    rw [width, width, ht.width_eq]
  | signExtend bits t, h, hfit => by
    rw [normalCounts, allFit_append] at hfit
    have ht := normalize_fills t h.1 hfit.1
    refine (mkSignExtend_fills ⟨ht.regular, ht.width_eq ▸ h.2⟩).trans ?_
    rw [width, width, ht.width_eq]
  | apply f ts w, h, hfit => ⟨⟨(normalizeList_fills ts h.1 hfit).1, h.2⟩, rfl⟩
  | select a t w, h, hfit => ⟨⟨(normalize_fills t h.1 hfit).regular, h.2⟩, rfl⟩

theorem normalizeList_fills : ∀ (ts : List Term), AllRegular ts → AllFit (normalCountsList ts) →
    AllRegular (normalizeList ts) ∧ (normalizeList ts).map width = ts.map width
  | [], _, _ => ⟨trivial, rfl⟩
  | t :: ts, h, hfit => by
    rw [normalCountsList, allFit_append] at hfit
    have ht := normalize_fills t h.1 hfit.1
    obtain ⟨hts, hw⟩ := normalizeList_fills ts h.2 hfit.2
    exact ⟨⟨ht.regular, hts⟩, by rw [normalizeList, List.map_cons, ht.width_eq, hw, List.map_cons]⟩

end

mutual

theorem WellFormed.normalCounts_fit : ∀ {t : Term}, t.WellFormed → AllFit t.normalCounts
  | lit _ _, _ | sym _ _, _ => allFit_nil
  | unary op t, h => by
    have hfit := WellFormed.normalCounts_fit (t := t) h
    rw [normalCounts, allFit_append]
    exact ⟨hfit, (normalize_fills t (WellFormed.regular (t := t) h) hfit).regular.widthCounts_fit⟩
  | binary op l r, h => by
    have hl := h.1.normalCounts_fit
    have hr := h.2.1.normalCounts_fit
    simp only [normalCounts, allFit_append]
    exact ⟨⟨hl, hr⟩, mkBinaryCounts_fit (normalize_fills l h.1.regular hl).regular
      (normalize_fills r h.2.1.regular hr).regular⟩
  | compare op l r, h => by
    have hl := h.1.normalCounts_fit
    have hr := h.2.1.normalCounts_fit
    simp only [normalCounts, allFit_append]
    exact ⟨⟨hl, hr⟩, mkCompareCounts_fit (normalize_fills l h.1.regular hl).regular
      (normalize_fills r h.2.1.regular hr).regular⟩
  | extract high low t, h => by
    have hfit := h.1.normalCounts_fit
    have ht := normalize_fills t h.1.regular hfit
    rw [normalCounts, allFit_append]
    exact ⟨hfit, Regular.mkExtractCounts_fit ⟨ht.regular, h.2.1, ht.width_eq ▸ h.2.2⟩⟩
  | concat ts, h => by
    have hfit := h.2.1.normalCountsList_fit
    obtain ⟨hts, hw⟩ := normalizeList_fills ts h.2.1.regular hfit
    have hcat := (regular_concat_of_widths h.regular hts hw).mkConcatCounts_fit
    rw [allFit_append] at hcat
    rw [normalCounts, allFit_append]
    exact ⟨hfit, hcat.1⟩
  | zeroExtend bits t, h => by
    have hfit := h.1.normalCounts_fit
    rw [normalCounts, allFit_append]
    refine ⟨hfit, mkZeroExtendCounts_fit ?_⟩
    rw [(normalize_fills t h.1.regular hfit).width_eq]
    exact h.2
  | signExtend bits t, h => by
    have hfit := h.1.normalCounts_fit
    rw [normalCounts, allFit_append]
    refine ⟨hfit, mkSignExtendCounts_fit ?_⟩
    rw [(normalize_fills t h.1.regular hfit).width_eq]
    exact h.2
  | apply _ _ _, h => h.1.normalCountsList_fit
  | select _ _ _, h => h.1.normalCounts_fit

theorem AllWellFormed.normalCountsList_fit : ∀ {ts : List Term}, AllWellFormed ts →
    AllFit (normalCountsList ts)
  | [], _ => allFit_nil
  | _ :: _, h => by
    rw [normalCountsList, allFit_append]
    exact ⟨h.1.normalCounts_fit, h.2.normalCountsList_fit⟩

end

/-! ## Evaluation -/

mutual

theorem WellFormed.evaluationCounts_fit (b : Bindings) : ∀ {t : Term}, t.WellFormed →
    AllFit (t.evaluationCounts b)
  | lit _ _, _ | sym _ _, _ | apply _ _ _, _ | select _ _ _, _ => allFit_nil
  | unary _ t, h => by
    have ht : t.WellFormed := h
    rw [evaluationCounts, allFit_append]
    exact ⟨ht.evaluationCounts_fit b, ht.regular.widthCounts_fit.whenSome⟩
  | binary _ l r, h | compare _ l r, h => by
    rw [evaluationCounts, allFit_append]
    refine ⟨h.1.evaluationCounts_fit b, AllFit.whenSome (allFit_append.2 ?_)⟩
    exact ⟨h.2.1.evaluationCounts_fit b, h.1.regular.widthCounts_fit.whenSome⟩
  | extract high low t, h => by
    rw [evaluationCounts, allFit_append]
    exact ⟨h.1.evaluationCounts_fit b, h.regular.widthCounts_fit.whenSome⟩
  | concat _, h => h.2.1.evaluationCountsList_fit b
  | zeroExtend _ _, h => h.1.evaluationCounts_fit b
  | signExtend bits t, h => by
    rw [evaluationCounts, allFit_append, allFit_append]
    refine ⟨⟨h.1.regular.widthCounts_fit, h.1.evaluationCounts_fit b⟩, ?_⟩
    split
    · split
      · simp only [allFit_cons, allFit_nil, Fits, and_true]
        rw [Nat.add_comm]
        exact h.2
      · exact allFit_nil
    · exact allFit_nil

theorem AllWellFormed.evaluationCountsList_fit (b : Bindings) : ∀ {ts : List Term},
    AllWellFormed ts → AllFit (evaluationCountsList b ts)
  | [], _ => allFit_nil
  | _ :: _, h => by
    rw [evaluationCountsList, allFit_append, allFit_append]
    exact ⟨⟨h.1.regular.widthCounts_fit, h.1.evaluationCounts_fit b⟩,
      (h.2.evaluationCountsList_fit b).whenSome⟩

end

end Term

end SymWord
