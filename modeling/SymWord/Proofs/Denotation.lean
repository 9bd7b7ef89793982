import SymWord.Proofs.OperatorLaws
import SymWord.Proofs.WellFormed
import SymWord.Term.Declaration
import SymWord.Term.Evaluation

/-!
# What a term stands for

Under an interpretation every term stands for a number: evaluation with uninterpreted functions and
arrays read off the interpretation. A well-formed term stands for a word of its width.

Evaluation under bindings gives a number exactly when every free name of the term is a bitvector
that is bound, and then the number that the term stands for (`evaluate_eq_some_iff`).
-/

namespace SymWord

/-- Numbers for symbols, functions and arrays. A function or array may depend on the widths at
which it is used, and every result is reduced to the width of the term that asks for it. -/
structure Interpretation where
  symbol : String → Nat
  function (name : String) (domain : List Nat) (width : Nat) (args : List Nat) : Nat
  array (name : String) (indexWidth width : Nat) (index : Nat) : Nat

namespace Term

mutual

def denote (I : Interpretation) : Term → Nat
  | lit v _ => v
  | sym n w => Word.truncate (I.symbol n) w
  | unary op t => op.eval (denote I t) t.width
  | binary op l r => op.eval (denote I l) (denote I r) l.width
  | compare op l r => (op.eval (denote I l) (denote I r) l.width).toNat
  | extract high low t => Word.truncate (denote I t >>> low) (high - low + 1)
  | concat ts => denoteParts I 0 ts
  | zeroExtend _ t => denote I t
  | signExtend bits t => Word.signExtend (denote I t) t.width (t.width + bits)
  | apply f ts w => Word.truncate (I.function f (ts.map width) w (denoteList I ts)) w
  | select a t w => Word.truncate (I.array a t.width w (denote I t)) w

/-- The number of the parts put below the bits of `high`. -/
def denoteParts (I : Interpretation) (high : Nat) : List Term → Nat
  | [] => high
  | t :: ts => denoteParts I ((high <<< t.width) ||| denote I t) ts

def denoteList (I : Interpretation) : List Term → List Nat
  | [] => []
  | t :: ts => denote I t :: denoteList I ts

end

variable (I : Interpretation)

theorem denoteParts_eq : ∀ (ts : List Term) (high : Nat),
    denoteParts I high ts = (high <<< totalWidth ts) ||| (concat ts).denote I
  | [], high => by simp [denoteParts, denote]
  | t :: ts, high => by
    have hcat : (concat (t :: ts)).denote I = denoteParts I (t.denote I) ts := by
      rw [denote, denoteParts, Nat.zero_shiftLeft, Nat.zero_or]
    rw [denoteParts, denoteParts_eq ts, hcat, denoteParts_eq ts, Nat.shiftLeft_or_distrib,
      ← Nat.shiftLeft_add, totalWidth_cons, Nat.or_assoc]

@[simp] theorem denote_concat_nil : (concat []).denote I = 0 := rfl

theorem denote_concat_cons (t : Term) (ts : List Term) :
    (concat (t :: ts)).denote I = (t.denote I <<< totalWidth ts) ||| (concat ts).denote I := by
  rw [denote, denoteParts, Nat.zero_shiftLeft, Nat.zero_or, denoteParts_eq]

theorem denote_concat_append (ts us : List Term) :
    (concat (ts ++ us)).denote I
      = ((concat ts).denote I <<< totalWidth us) ||| (concat us).denote I := by
  induction ts with
  | nil => simp
  | cons t ts ih =>
    rw [List.cons_append, denote_concat_cons, ih, denote_concat_cons, totalWidth_append,
      Nat.shiftLeft_or_distrib, ← Nat.shiftLeft_add, Nat.or_assoc]

theorem denote_concat_singleton (t : Term) : (concat [t]).denote I = t.denote I := by
  simp [denote_concat_cons]

theorem denote_concat_pair (t u : Term) :
    (concat [t, u]).denote I = (t.denote I <<< u.width) ||| u.denote I := by
  rw [denote_concat_cons, denote_concat_singleton, totalWidth_cons, totalWidth_nil, Nat.add_zero]

mutual

theorem denote_lt : ∀ {t : Term}, t.WellFormed → t.denote I < 2 ^ t.width
  | lit _ _, h => h.1
  | sym _ w, _ => Word.truncate_lt _ w
  | unary op t, _ => UnaryOp.eval_lt op _ t.width
  | binary op l _, _ => BinaryOp.eval_lt op _ _ l.width
  | compare _ _ _, _ => Bool.toNat_lt _
  | extract high low _, _ => Word.truncate_lt _ (high - low + 1)
  | concat ts, h => by
    rw [width_concat]
    exact denote_concat_lt h.2.1
  | zeroExtend bits t, h => by
    have hle : 2 ^ t.width ≤ 2 ^ (bits + t.width) := Nat.pow_le_pow_right (by decide) (by omega)
    rw [width_zeroExtend h.2, denote]
    exact Nat.lt_of_lt_of_le (denote_lt h.1) hle
  | signExtend bits t, h => by
    rw [width_signExtend h.2, denote, Nat.add_comm bits]
    exact Word.signExtend_lt (denote_lt h.1) (by omega)
  | apply _ _ w, _ => Word.truncate_lt _ w
  | select _ _ w, _ => Word.truncate_lt _ w

theorem denote_concat_lt : ∀ {ts : List Term}, AllWellFormed ts →
    (concat ts).denote I < 2 ^ totalWidth ts
  | [], _ => by simp
  | t :: ts, h => by
    rw [denote_concat_cons, totalWidth_cons]
    exact Word.shiftLeft_or_lt (denote_lt h.1) (denote_concat_lt h.2)

end

/-! ### Evaluation -/

end Term

/-- Whether bindings give a number for a free name. They never do for functions and arrays. -/
def Declaration.Bound (b : Bindings) : Declaration → Prop
  | constant n _ => (b n).isSome
  | _ => False

/-- The interpretation has the numbers of the bindings. -/
def Interpretation.Extends (I : Interpretation) (b : Bindings) : Prop :=
  ∀ n v, b n = some v → I.symbol n = v

/-- Unbound symbols, functions and arrays are zero. -/
def Interpretation.ofBindings (b : Bindings) : Interpretation where
  symbol n := (b n).getD 0
  function _ _ _ _ := 0
  array _ _ _ _ := 0

theorem Interpretation.ofBindings_extends (b : Bindings) : (ofBindings b).Extends b := by
  intro n v h
  simp [ofBindings, h]

namespace Term

variable {I : Interpretation} {b : Bindings}

mutual

theorem evaluate_of_bound (hI : I.Extends b) :
    ∀ (t : Term), (∀ d ∈ t.mentions, d.Bound b) → t.evaluate b = some (t.denote I)
  | lit v w, _ => rfl
  | sym n w, h => by
    have hb : (b n).isSome := h (.constant n w) (by simp [mentions])
    obtain ⟨v, hv⟩ := Option.isSome_iff_exists.1 hb
    simp [evaluate, denote, hv, hI n v hv]
  | unary op t, h => by
    simp [evaluate, denote, evaluate_of_bound hI t h]
  | binary op l r, h => by
    rw [mentions] at h
    have hl := evaluate_of_bound hI l fun d hd => h d (List.mem_append_left _ hd)
    have hr := evaluate_of_bound hI r fun d hd => h d (List.mem_append_right _ hd)
    simp [evaluate, denote, hl, hr]
  | compare op l r, h => by
    rw [mentions] at h
    have hl := evaluate_of_bound hI l fun d hd => h d (List.mem_append_left _ hd)
    have hr := evaluate_of_bound hI r fun d hd => h d (List.mem_append_right _ hd)
    simp [evaluate, denote, hl, hr]
  | extract high low t, h => by
    simp [evaluate, denote, evaluate_of_bound hI t h]
  | concat ts, h => by
    rw [evaluate, denote, evaluateParts_of_bound hI ts 0 h]
  | zeroExtend bits t, h => by
    rw [evaluate, denote, evaluate_of_bound hI t h]
  | signExtend bits t, h => by
    simp [evaluate, denote, evaluate_of_bound hI t h]
  | apply f ts w, h => (h (.function f (ts.map width) w) (by simp [mentions])).elim
  | select a t w, h => (h (.array a t.width w) (by simp [mentions])).elim

theorem evaluateParts_of_bound (hI : I.Extends b) :
    ∀ (ts : List Term) (high : Nat), (∀ d ∈ listMentions ts, d.Bound b) →
      evaluateParts b high ts = some (denoteParts I high ts)
  | [], high, _ => rfl
  | t :: ts, high, h => by
    rw [listMentions] at h
    have ht := evaluate_of_bound hI t fun d hd => h d (List.mem_append_left _ hd)
    have hts := fun high' =>
      evaluateParts_of_bound hI ts high' fun d hd => h d (List.mem_append_right _ hd)
    simp [evaluateParts, denoteParts, ht, hts]

end

mutual

theorem bound_of_evaluate :
    ∀ (t : Term) {v : Nat}, t.evaluate b = some v → ∀ d ∈ t.mentions, d.Bound b
  | lit _ _, _, _ => by simp [mentions]
  | sym n w, v, h => by
    simp only [evaluate, Option.map_eq_some_iff] at h
    obtain ⟨u, hu, -⟩ := h
    simp [mentions, Declaration.Bound, hu]
  | unary op t, v, h => by
    simp only [evaluate, Option.bind_eq_bind, Option.bind_eq_some_iff] at h
    obtain ⟨u, hu, -⟩ := h
    exact bound_of_evaluate t hu
  | binary op l r, v, h => by
    simp only [evaluate, Option.bind_eq_bind, Option.bind_eq_some_iff] at h
    obtain ⟨u, hu, u', hu', -⟩ := h
    intro d hd
    rcases List.mem_append.1 hd with hd | hd
    · exact bound_of_evaluate l hu d hd
    · exact bound_of_evaluate r hu' d hd
  | compare op l r, v, h => by
    simp only [evaluate, Option.bind_eq_bind, Option.bind_eq_some_iff] at h
    obtain ⟨u, hu, u', hu', -⟩ := h
    intro d hd
    rcases List.mem_append.1 hd with hd | hd
    · exact bound_of_evaluate l hu d hd
    · exact bound_of_evaluate r hu' d hd
  | extract high low t, v, h => by
    simp only [evaluate, Option.bind_eq_bind, Option.bind_eq_some_iff] at h
    obtain ⟨u, hu, -⟩ := h
    exact bound_of_evaluate t hu
  | concat ts, v, h => bound_of_evaluateParts ts h
  | zeroExtend bits t, v, h => bound_of_evaluate t h
  | signExtend bits t, v, h => by
    simp only [evaluate, Option.bind_eq_bind, Option.bind_eq_some_iff] at h
    obtain ⟨u, hu, -⟩ := h
    exact bound_of_evaluate t hu
  | apply _ _ _, _, h => by simp [evaluate] at h
  | select _ _ _, _, h => by simp [evaluate] at h

theorem bound_of_evaluateParts :
    ∀ (ts : List Term) {high v : Nat}, evaluateParts b high ts = some v →
      ∀ d ∈ listMentions ts, d.Bound b
  | [], _, _, _ => by simp [listMentions]
  | t :: ts, high, v, h => by
    simp only [evaluateParts, Option.bind_eq_bind, Option.bind_eq_some_iff] at h
    obtain ⟨u, hu, hts⟩ := h
    intro d hd
    rcases List.mem_append.1 hd with hd | hd
    · exact bound_of_evaluate t hu d hd
    · exact bound_of_evaluateParts ts hts d hd

end

/-- Evaluation gives a number exactly when every free name is bound, and it is the one that the
term stands for. -/
theorem evaluate_eq_some_iff (hI : I.Extends b) {t : Term} {v : Nat} :
    t.evaluate b = some v ↔ (∀ d ∈ t.mentions, d.Bound b) ∧ t.denote I = v := by
  constructor
  · intro h
    have hb := bound_of_evaluate t h
    rw [evaluate_of_bound hI t hb, Option.some.injEq] at h
    exact ⟨hb, h⟩
  · rintro ⟨hb, rfl⟩
    exact evaluate_of_bound hI t hb

end Term

end SymWord
