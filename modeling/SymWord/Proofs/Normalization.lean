import SymWord.Proofs.OperatorNodes
import SymWord.Proofs.SliceNodes
import SymWord.Term.Normal

/-!
# Normalization keeps the meaning

The normal form of a well-formed term replaces the term: each node is rebuilt over operands that
replace the old ones, and the rules for the node replace the rebuilt one. So normalization keeps
well-formedness, width and number, and since it brings in no names, evaluation of the normal form
gives a number wherever evaluation of the term does.
-/

namespace SymWord

namespace Term

mutual

theorem normalize_replaces : ∀ (t : Term), t.WellFormed → Replaces t.normalize t
  | lit _ _, h => Replaces.refl h
  | sym _ _, h => Replaces.refl h
  | unary op t, h => by
    have ht := normalize_replaces t h
    exact (mkUnary_replaces op ht.wellFormed).trans (ht.unary op)
  | binary op l r, h => by
    have hop := (normalize_replaces l h.1).binary op (normalize_replaces r h.2.1) h.2.2
    exact (mkBinary_replaces hop.wellFormed).trans hop
  | compare op l r, h => by
    have hop := (normalize_replaces l h.1).compare op (normalize_replaces r h.2.1) h.2.2
    exact (mkCompare_replaces hop.wellFormed).trans hop
  | extract high low t, h => by
    have hop := (normalize_replaces t h.1).extract h.2.1 h.2.2
    exact (mkExtract_replaces t.normalize hop.wellFormed).trans hop
  | concat ts, h => by
    have hop := Replaces.concat (normalizeList_replaces ts h.2.1).parts h
    exact (mkConcat_replaces hop.wellFormed).trans hop
  | zeroExtend bits t, h => by
    have hop := (normalize_replaces t h.1).zeroExtend h.2
    exact (mkZeroExtend_replaces hop.wellFormed).trans hop
  | signExtend bits t, h => by
    have hop := (normalize_replaces t h.1).signExtend h.2
    exact (mkSignExtend_replaces hop.wellFormed).trans hop
  | apply f ts w, h => Replaces.apply (normalizeList_replaces ts h.1) h.2
  | select a t w, h => (normalize_replaces t h.1).select h.2

theorem normalizeList_replaces : ∀ (ts : List Term), AllWellFormed ts →
    ReplacesList (normalizeList ts) ts
  | [], _ => ReplacesList.nil
  | t :: ts, h => (normalizeList_replaces ts h.2).cons (normalize_replaces t h.1)

end

/-- Evaluation of what replaces a term gives a number at least where evaluation of the term does. -/
theorem Replaces.evaluate {s t : Term} (h : Replaces s t) {b : Bindings} {v : Nat}
    (ht : t.evaluate b = some v) : s.evaluate b = some v := by
  have hI := Interpretation.ofBindings_extends b
  obtain ⟨hbound, hd⟩ := (evaluate_eq_some_iff hI).1 ht
  refine (evaluate_eq_some_iff hI).2 ⟨fun d hd => hbound d (h.mentions_subset hd), ?_⟩
  rw [h.denote_eq, hd]

theorem normalize_keeps_meaning {t : Term} (h : t.WellFormed) :
    t.normalize.WellFormed ∧ t.normalize.width = t.width
      ∧ (∀ I, t.normalize.denote I = t.denote I)
      ∧ ∀ b v, t.evaluate b = some v → t.normalize.evaluate b = some v := by
  have hn := normalize_replaces t h
  exact ⟨hn.wellFormed, hn.width_eq, hn.denote_eq, fun b v hv => hn.evaluate hv⟩

/-- An extraction across the two parts of a concatenation, the lower one an offset that cancels. -/
theorem normalize_keeps_meaning_across :
    (extract 11 4 (concat [sym "x" 8, binary .sub (binary .add (sym "y" 8) (lit 9 8)) (lit 9 8)])
      ).WellFormed ∧
    (extract 11 4 (concat [sym "x" 8, binary .sub (binary .add (sym "y" 8) (lit 9 8)) (lit 9 8)])
      ).normalize.evaluate (fun n => some (if n = "x" then 0x12 else 0x34)) = some 0x23 :=
  ⟨by decide, (normalize_keeps_meaning (by decide)).2.2.2 _ _ (by decide)⟩

end Term

end SymWord
