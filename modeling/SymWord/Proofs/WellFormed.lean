import SymWord.Proofs.OperatorLaws
import SymWord.Term.Basic

/-!
# Well-formed terms

A term is well-formed when every literal is a word of its width, operands agree in width,
extractions lie inside their operands, no concatenation is empty, and every width is at least one
and below the limit. In particular no extension has stopped at the limit, so on well-formed terms
every width is the sum that it should be.
-/

namespace SymWord

namespace Width

/-- At least one bit, and below the limit. -/
def Valid (w : Nat) : Prop := 0 < w ∧ w < limit

instance (w : Nat) : Decidable (Valid w) := inferInstanceAs (Decidable (_ ∧ _))

theorem valid_one : Valid 1 := by decide

end Width

namespace Term

@[simp] theorem totalWidth_nil : totalWidth [] = 0 := rfl

@[simp] theorem totalWidth_cons (t : Term) (ts : List Term) :
    totalWidth (t :: ts) = t.width + totalWidth ts := rfl

@[simp] theorem totalWidth_append (ts us : List Term) :
    totalWidth (ts ++ us) = totalWidth ts + totalWidth us := by
  induction ts with
  | nil => simp
  | cons t ts ih =>
    rw [List.cons_append, totalWidth_cons, ih, totalWidth_cons]
    omega

theorem totalWidth_congr : ∀ {ss ts : List Term}, ss.map width = ts.map width →
    totalWidth ss = totalWidth ts
  | [], [], _ => rfl
  | [], _ :: _, h => by simp at h
  | _ :: _, [], h => by simp at h
  | s :: ss, t :: ts, h => by
    simp only [List.map_cons, List.cons.injEq] at h
    rw [totalWidth_cons, totalWidth_cons, h.1, totalWidth_congr h.2]

mutual

def WellFormed : Term → Prop
  | lit v w => v < 2 ^ w ∧ Width.Valid w
  | sym _ w => Width.Valid w
  | unary _ t => t.WellFormed
  | binary _ l r => l.WellFormed ∧ r.WellFormed ∧ l.width = r.width
  | compare _ l r => l.WellFormed ∧ r.WellFormed ∧ l.width = r.width
  | extract high low t => t.WellFormed ∧ low ≤ high ∧ high < t.width
  | concat ts => ts ≠ [] ∧ AllWellFormed ts ∧ totalWidth ts < Width.limit
  | zeroExtend bits t => t.WellFormed ∧ bits + t.width < Width.limit
  | signExtend bits t => t.WellFormed ∧ bits + t.width < Width.limit
  | apply _ ts w => AllWellFormed ts ∧ Width.Valid w
  | select _ t w => t.WellFormed ∧ Width.Valid w

def AllWellFormed : List Term → Prop
  | [] => True
  | t :: ts => t.WellFormed ∧ AllWellFormed ts

end

mutual

/-- Well-formedness can be computed. -/
def decideWellFormed : (t : Term) → Decidable t.WellFormed
  | lit _ _ => inferInstanceAs (Decidable (_ ∧ _))
  | sym _ w => inferInstanceAs (Decidable (Width.Valid w))
  | unary _ t => decideWellFormed t
  | binary _ l r =>
    have := decideWellFormed l
    have := decideWellFormed r
    inferInstanceAs (Decidable (_ ∧ _ ∧ _))
  | compare _ l r =>
    have := decideWellFormed l
    have := decideWellFormed r
    inferInstanceAs (Decidable (_ ∧ _ ∧ _))
  | extract _ _ t =>
    have := decideWellFormed t
    inferInstanceAs (Decidable (_ ∧ _ ∧ _))
  | concat ts =>
    have := decideAllWellFormed ts
    inferInstanceAs (Decidable (_ ∧ _ ∧ _))
  | zeroExtend _ t =>
    have := decideWellFormed t
    inferInstanceAs (Decidable (_ ∧ _))
  | signExtend _ t =>
    have := decideWellFormed t
    inferInstanceAs (Decidable (_ ∧ _))
  | apply _ ts _ =>
    have := decideAllWellFormed ts
    inferInstanceAs (Decidable (_ ∧ _))
  | select _ t _ =>
    have := decideWellFormed t
    inferInstanceAs (Decidable (_ ∧ _))

def decideAllWellFormed : (ts : List Term) → Decidable (AllWellFormed ts)
  | [] => isTrue trivial
  | t :: ts =>
    have := decideWellFormed t
    have := decideAllWellFormed ts
    inferInstanceAs (Decidable (_ ∧ _))

end

instance : DecidablePred WellFormed := decideWellFormed

theorem allWellFormed_iff {ts : List Term} : AllWellFormed ts ↔ ∀ t ∈ ts, t.WellFormed := by
  induction ts with
  | nil => simp [AllWellFormed]
  | cons t ts ih => simp [AllWellFormed, ih]

theorem width_concat (ts : List Term) : (concat ts).width = totalWidth ts := rfl

theorem width_zeroExtend {bits : Nat} {t : Term} (h : bits + t.width < Width.limit) :
    (zeroExtend bits t).width = bits + t.width := by
  rw [width, Width.extend_of_lt h]

theorem width_signExtend {bits : Nat} {t : Term} (h : bits + t.width < Width.limit) :
    (signExtend bits t).width = bits + t.width := by
  rw [width, Width.extend_of_lt h]

/-- The width of a well-formed term is in range. -/
theorem WellFormed.valid : ∀ {t : Term}, t.WellFormed → Width.Valid t.width
  | lit _ _, h => h.2
  | sym _ _, h => h
  | unary _ t, h => WellFormed.valid (t := t) h
  | binary _ _ _, h => h.1.valid
  | compare _ _ _, _ => Width.valid_one
  | extract high low t, h => by
    have hv := h.1.valid.2
    have hlt := h.2.2
    rw [width]
    exact ⟨by omega, by omega⟩
  | concat ts, h => by
    obtain ⟨hne, hts, hlt⟩ := h
    rw [width_concat]
    refine ⟨?_, hlt⟩
    rcases ts with _ | ⟨t, ts⟩
    · exact absurd rfl hne
    · have := hts.1.valid.1
      rw [totalWidth_cons]
      omega
  | zeroExtend _ t, h => by
    have := h.1.valid.1
    rw [width_zeroExtend h.2]
    exact ⟨by omega, h.2⟩
  | signExtend _ t, h => by
    have := h.1.valid.1
    rw [width_signExtend h.2]
    exact ⟨by omega, h.2⟩
  | apply _ _ _, h => h.2
  | select _ _ _, h => h.2

theorem WellFormed.width_pos {t : Term} (h : t.WellFormed) : 0 < t.width := h.valid.1

theorem WellFormed.width_lt {t : Term} (h : t.WellFormed) : t.width < Width.limit := h.valid.2

theorem width_extract (high low : Nat) (t : Term) :
    (extract high low t).width = high - low + 1 := rfl

@[simp] theorem width_zero (w : Nat) : (zero w).width = w := rfl

theorem wellFormed_const {v w : Nat} (hw : Width.Valid w) : (const v w).WellFormed :=
  ⟨Word.truncate_lt v w, hw⟩

theorem wellFormed_zero {w : Nat} (hw : Width.Valid w) : (zero w).WellFormed :=
  ⟨Nat.two_pow_pos w, hw⟩

theorem wellFormed_ofBool (b : Bool) : (ofBool b).WellFormed := by
  cases b <;> exact ⟨by decide, Width.valid_one⟩

end Term

end SymWord
