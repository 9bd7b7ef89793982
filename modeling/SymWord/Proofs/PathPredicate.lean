import SymWord.Proofs.Satisfiability

/-!
# Path predicates

The predicate of a path takes in one condition after another by conjunction, and each conjunction is
simplified at once. Conditions may be dropped on the way, and with them the bitvectors that only
they mention, but the result holds where all of them hold (`Conjunction.foldlM`). So a check of the
path predicate searches fewer bitvectors than a check of its conditions, and still has the same
verdict.
-/

namespace SymWord

theorem BinaryOp.eval_and_eq_one {x y : Nat} (hx : x < 2) (hy : y < 2) :
    and.eval x y 1 = 1 ↔ x = 1 ∧ y = 1 := by
  rcases Nat.lt_succ_iff_lt_or_eq.1 hx with hx | rfl
  · rw [Nat.lt_one_iff.1 hx, eval_comm rfl, eval_and_zero hy]
    simp
  · have hmask : and.eval y 1 1 = y := eval_and_mask hy
    rw [eval_comm rfl, hmask]
    simp

namespace Value

/-- The predicate holds where all of the conditions do, and mentions nothing that they do not. -/
structure Conjunction (ps : List Value) (p : Value) : Prop where
  wellFormed : p.term.WellFormed
  oneBit : p.width = 1
  denote_iff : ∀ I, p.term.denote I = 1 ↔ ∀ q ∈ ps, q.term.denote I = 1
  mentions : ∀ d ∈ p.term.mentions, ∃ q ∈ ps, d ∈ q.term.mentions

namespace Conjunction

variable {ps : List Value} {p q : Value}

theorem start : Conjunction [] (ofBool true) where
  wellFormed := Term.wellFormed_ofBool true
  oneBit := rfl
  denote_iff I := ⟨fun _ => by simp, fun _ => rfl⟩
  mentions d hd := by simp [ofBool, Term.ofBool, Term.mentions] at hd

theorem combine (h : Conjunction ps p) (hq : q.term.WellFormed) (hone : q.width = 1) :
    ∃ p', p.combine .and q = .ok p' ∧ Conjunction (ps ++ [q]) p' := by
  have hagree : agree p q = .ok () := if_pos (h.oneBit.trans hone.symm)
  have hrep : Term.Replaces (.mkBinary .and p.term q.term) (.binary .and p.term q.term) :=
    Term.mkBinary_replaces ⟨h.wellFormed, hq, h.oneBit.trans hone.symm⟩
  refine ⟨⟨.mkBinary .and p.term q.term⟩, ?_, hrep.wellFormed, hrep.width_eq.trans h.oneBit,
    fun I => ?_, fun d hd => ?_⟩
  · rw [Value.combine, binary, hagree]
    rfl
  · have hp := Term.denote_lt I h.wellFormed
    have hq := Term.denote_lt I hq
    have hpw : p.term.width = 1 := h.oneBit
    have hqw : q.term.width = 1 := hone
    rw [hpw] at hp
    rw [hqw] at hq
    rw [hrep.denote_eq, Term.denote, hpw, BinaryOp.eval_and_eq_one hp hq, h.denote_iff,
      List.forall_mem_append, List.forall_mem_singleton]
  · rcases List.mem_append.1 (hrep.mentions_subset hd) with hd | hd
    · obtain ⟨r, hr, hdr⟩ := h.mentions d hd
      exact ⟨r, List.mem_append_left _ hr, hdr⟩
    · exact ⟨q, by simp, hd⟩

theorem foldlM : ∀ (qs : List Value) {ps : List Value} {p : Value}, Conjunction ps p →
    (∀ q ∈ qs, q.term.WellFormed) → (∀ q ∈ qs, q.width = 1) →
      ∃ p', qs.foldlM (Value.combine .and) p = .ok p' ∧ Conjunction (ps ++ qs) p'
  | [], _, p, h, _, _ => ⟨p, rfl, by rwa [List.append_nil]⟩
  | q :: qs, _, _, h, hwf, hone => by
    obtain ⟨hq, hqs⟩ := List.forall_mem_cons.1 hwf
    obtain ⟨hqone, hqsone⟩ := List.forall_mem_cons.1 hone
    obtain ⟨p₁, hp₁, h₁⟩ := h.combine hq hqone
    obtain ⟨p', hp', h'⟩ := foldlM qs h₁ hqs hqsone
    refine ⟨p', ?_, ?_⟩
    · rw [List.foldlM_cons, hp₁]
      exact hp'
    · rwa [List.append_assoc, List.singleton_append] at h'

end Conjunction

end Value

namespace Query

open Exhaustive Enumeration

variable {maxBits : Nat} {ps : List Value} {p : Value}

/-- What can be searched for the conditions can be searched for the path predicate. -/
theorem Checkable.conjunction (h : Checkable maxBits ps) (hp : Value.Conjunction ps p) :
    Checkable maxBits [p] := by
  have hmentions : Term.listMentions ([p].map Value.term)
      ⊆ Term.listMentions (ps.map Value.term) := by
    intro d hd
    obtain ⟨q, hq, hdq⟩ := mem_listMentions.1 hd
    rw [List.mem_singleton.1 hq] at hdq
    exact mem_listMentions.2 (hp.mentions d hdq)
  have hconsistent := h.consistent.subset hmentions
  have hsymbols : symbols [p] ⊆ symbols ps := fun c hc =>
    mem_symbols.2 (mem_listMentions.1 (hmentions (mem_listMentions.2 (mem_symbols.1 hc))))
  have hnodup : (symbols [p]).Nodup :=
    List.Pairwise.of_map Prod.fst (fun _ _ hne heq => hne (congrArg Prod.fst heq))
      (nodup_symbols hconsistent)
  exact ⟨⟨List.forall_mem_singleton.2 hp.oneBit, hconsistent⟩,
    List.forall_mem_singleton.2 hp.wellFormed,
    Nat.le_trans (bits_le_of_subset hnodup hsymbols) h.fits, h.maxBits_lt⟩

/-- The conditions of a path and their conjunction are both decided, with the same verdict: whether
some bindings make all conditions hold when functions and arrays are zero. -/
theorem check_conjunction {maxBits : Nat} {ps : List Value} (h : Checkable maxBits ps) :
    ∃ p v v', ps.foldlM (Value.combine .and) (.ofBool true) = .ok p
      ∧ (∀ s, ((check (backend maxBits) ps).run s).1 = .ok v)
      ∧ (∀ s, ((check (backend maxBits) [p]).run s).1 = .ok v')
      ∧ v.isSatisfiable = v'.isSatisfiable
      ∧ (v.isSatisfiable = true
        ↔ ∃ b : Bindings, ∀ q ∈ ps, q.term.denote (.ofBindings b) = 1) := by
  obtain ⟨p, hfold, hp⟩ := Value.Conjunction.start.foldlM ps h.wellFormed h.oneBit
  obtain ⟨v, hv, hsat⟩ := h.check_verdict
  obtain ⟨v', hv', hsat'⟩ := (h.conjunction hp).check_verdict
  refine ⟨p, v, v', hfold, hv, hv', ?_, hsat⟩
  rw [Bool.eq_iff_iff, hsat, hsat']
  refine exists_congr fun b => ?_
  rw [List.forall_mem_singleton, hp.denote_iff, List.nil_append]

/-- The last condition absorbs the others, which read an array and apply a function, so the path
predicate has no bitvectors left to search. -/
theorem check_conjunction_absorbed :
    let ps : List Value := [⟨.compare .ult (.select "mem" (.sym "a" 2) 2) (.sym "x" 2)⟩,
      ⟨.compare .eq (.apply "f" [.sym "x" 2] 1) (.sym "c" 1)⟩, .ofBool false]
    Checkable 5 ps ∧ ∃ p v v', ps.foldlM (Value.combine .and) (.ofBool true) = .ok p
      ∧ ((check (backend 5) ps).run []).1 = .ok v ∧ ((check (backend 5) [p]).run []).1 = .ok v'
      ∧ v.isSatisfiable = v'.isSatisfiable := by
  intro ps
  have h : Checkable 5 ps :=
    ⟨⟨by decide, by unfold Consistent; decide⟩, by decide, by decide, by decide⟩
  obtain ⟨p, v, v', hfold, hv, hv', hsat, -⟩ := check_conjunction h
  exact ⟨h, p, v, v', hfold, hv [], hv' [], hsat⟩

end Query

end SymWord
