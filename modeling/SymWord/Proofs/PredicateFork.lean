import SymWord.Proofs.ModelEnumeration

/-!
# A predicate and its negation

The negation of a predicate mentions the same names in the same places, so both declare the same
bitvectors and number the assignments alike. It holds exactly where the predicate does not, so the
solutions of the two together are all numbers in some order (`solutions_complement`), and what the
two enumerations list together are all assignments.
-/

namespace SymWord

namespace Term

/-- Not only the same names: they stand in the same order, which fixes how they are declared. -/
theorem mentions_mkUnary (op : UnaryOp) (t : Term) : (mkUnary op t).mentions = t.mentions := by
  fun_cases mkUnary op t <;> rfl

theorem evaluate_mkUnary_not {t : Term} (h : t.WellFormed) (hw : t.width = 1) (b : Bindings)
    (x : Bool) :
    (mkUnary .not t).evaluate b = some (!x).toNat ↔ t.evaluate b = some x.toNat := by
  have hI := Interpretation.ofBindings_extends b
  have hlt := denote_lt (Interpretation.ofBindings b) h
  rw [evaluate_eq_some_iff hI, evaluate_eq_some_iff hI, mentions_mkUnary,
    (mkUnary_replaces .not h).denote_eq, denote]
  rw [hw] at hlt ⊢
  refine and_congr_right fun _ => ?_
  obtain ⟨y, hy⟩ : ∃ y : Bool, t.denote (Interpretation.ofBindings b) = y.toNat := by
    rcases Nat.lt_succ_iff_lt_or_eq.1 hlt with h0 | h1
    · exact ⟨false, Nat.lt_one_iff.1 h0⟩
    · exact ⟨true, h1⟩
  rw [hy, UnaryOp.eval_not_toNat]
  cases x <;> cases y <;> decide

end Term

namespace Enumeration

open Exhaustive

variable {maxBits : Nat} {p : Value}

theorem declared_complement (p : Value) : declared [p.complement] = declared [p] := by
  simp only [declared, List.map_cons, List.map_nil, Term.listMentions, Value.complement,
    Term.mentions_mkUnary]

theorem symbols_complement (p : Value) : symbols [p.complement] = symbols [p] := by
  rw [symbols, declared_complement, symbols]

/-- A single predicate, whether it is asserted or left out because it is literally true. -/
theorem Plain.satisfies_singleton (h : Plain [p]) {k : Nat} {x : Bool}
    (hx : p.term.evaluate (bindings (assignment (symbols [p]) k)) = some x.toNat) :
    satisfies (declared [p]) (assertions [p]) k = x := by
  rw [Bool.eq_iff_iff, satisfies_iff h.declared_constant h.nodup h.assertions_over,
    forall_assertions, List.forall_mem_singleton, ← symbols, hx]
  cases x <;> decide

namespace Enumerable

theorem complement (h : Enumerable maxBits [p]) : Enumerable maxBits [p.complement] := by
  have hp : p ∈ [p] := List.mem_singleton_self p
  have hrep := Term.mkUnary_replaces .not (h.wellFormed p hp)
  have hmentions : p.complement.term.mentions = p.term.mentions := Term.mentions_mkUnary .not p.term
  constructor
  · exact List.forall_mem_singleton.2 hrep.wellFormed
  · exact List.forall_mem_singleton.2 (hrep.width_eq.trans (h.oneBit p hp))
  · rw [List.forall_mem_singleton, hmentions]
    exact h.constant p hp
  · rw [List.forall_mem_singleton, List.forall_mem_singleton, hmentions]
    exact h.oneWidth p hp p hp
  · rw [symbols_complement]
    exact h.fits
  · exact h.maxBits_lt

/-- The negation holds where the predicate does not. -/
theorem satisfies_complement (h : Enumerable maxBits [p]) (k : Nat) :
    satisfies (declared [p]) (assertions [p.complement]) k
      = !satisfies (declared [p]) (assertions [p]) k := by
  have hp : p ∈ [p] := List.mem_singleton_self p
  have hterm : p.term.Over (declared [p]) := ⟨h.wellFormed p hp, h.oneBit p hp, fun d hd =>
    List.mem_eraseDups.2 (mem_listMentions.2 ⟨p, hp, hd⟩)⟩
  obtain ⟨x, hx⟩ := hterm.evaluate
    (bound_of_word h.plain.declared_constant (word_assignment h.plain.nodup k))
  have hnot := (Term.evaluate_mkUnary_not hterm.wellFormed hterm.oneBit _ x).2 hx
  have hsat := h.complement.plain.satisfies_singleton (k := k) (x := !x)
  rw [symbols_complement, declared_complement] at hsat
  rw [hsat hnot, h.plain.satisfies_singleton hx]

theorem solutions_complement (h : Enumerable maxBits [p]) :
    (solutions (declared [p]) (assertions [p])
      ++ solutions (declared [p]) (assertions [p.complement])).Perm
        (List.range (2 ^ bits (symbols [p]))) := by
  rw [solutions, solutions, List.filter_congr fun k _ => h.satisfies_complement k]
  exact List.filter_append_perm _ _

/-- Without a limit all solutions are listed. -/
theorem models_run {ps : List Value} (h : Enumerable maxBits ps) (s : List Term) {fuel : Nat}
    (hfuel : (solutions (declared ps) (assertions ps)).length < fuel) :
    ((models (backend maxBits) fuel ps 0).run s).1
      = .ok (some ((solutions (declared ps) (assertions ps)).map (numbered (symbols ps)))) := by
  have hstart : (start (backend maxBits) ps 0).run s
      = (.ok ⟨declared ps, none, false⟩, assertions ps) := by
    rw [start, Call.run_bind_ok (h.prepare_run s)]
    rfl
  have hsession : blocked (declared ps) (assertions ps) [] = assertions ps := List.append_nil _
  obtain ⟨s', hrun⟩ := collect_run h.searchable _ [] fuel none rfl hfuel
  rw [hsession] at hrun
  rw [models, Call.run_bind_ok hstart, hrun]
  rfl

end Enumerable

/-! ## All assignments -/

/-- The assignments to the bitvectors of the predicates, by increasing number. -/
def assignments (ps : List Value) : List Model :=
  (List.range (2 ^ bits (symbols ps))).map (numbered (symbols ps))

theorem length_assignments (ps : List Value) :
    (assignments ps).length = 2 ^ bits (symbols ps) := by
  rw [assignments, List.length_map, List.length_range]

namespace Plain

variable {ps : List Value}

theorem mem_assignments (h : Plain ps) {m : Model} :
    m ∈ assignments ps ↔ Assigns (symbols ps) m := by
  rw [assignments, List.mem_map]
  constructor
  · rintro ⟨k, -, rfl⟩
    exact assigns_numbered h.nodup h.pos k
  · intro hm
    exact ⟨counter (symbols ps) m.bindings, List.mem_range.2 (counter_lt hm.word),
      numbered_counter h.nodup h.pos hm⟩

theorem nodup_assignments (h : Plain ps) : (assignments ps).Nodup := by
  refine List.pairwise_map.2 (List.pairwise_lt_range.imp_of_mem fun {j k} hj hk hlt heq => ?_)
  have hcounter := counter_numbered h.nodup h.pos (List.mem_range.1 hj)
  rw [heq, counter_numbered h.nodup h.pos (List.mem_range.1 hk)] at hcounter
  exact Nat.lt_irrefl j (hcounter ▸ hlt)

end Plain

/-- The enumerations of a predicate and of its negation both succeed. Together they list every
assignment to the bitvectors of the predicate, and none twice: where the predicate holds in the
first, where it does not in the second. -/
theorem models_fork {maxBits : Nat} {p : Value} (h : Enumerable maxBits [p]) :
    ∃ (q : Value) (ms ms' : List Model), p.not = .ok q
      ∧ (∀ (s : List Term) (fuel : Nat), ms.length < fuel →
        ((models (backend maxBits) fuel [p] 0).run s).1 = .ok (some ms))
      ∧ (∀ (s : List Term) (fuel : Nat), ms'.length < fuel →
        ((models (backend maxBits) fuel [q] 0).run s).1 = .ok (some ms'))
      ∧ (ms ++ ms').Nodup
      ∧ (ms ++ ms').length = 2 ^ bits (symbols [p])
      ∧ (∀ m, m ∈ ms ++ ms' ↔ Assigns (symbols [p]) m)
      ∧ (∀ m ∈ ms, m.evaluate p = .ok (some (.ofBool true)))
      ∧ ∀ m ∈ ms', m.evaluate p = .ok (some (.ofBool false)) := by
  have hp : p ∈ [p] := List.mem_singleton_self p
  have hone := h.oneBit p hp
  have hnot : p.not = .ok p.complement := if_pos hone
  have hruns := h.complement.models_run
  have hmem' := h.complement.mem_models
  rw [declared_complement, symbols_complement] at hruns hmem'
  have hperm := h.solutions_complement.map (numbered (symbols [p]))
  rw [List.map_append] at hperm
  refine ⟨p.complement, _, _, hnot, fun s fuel hfuel => h.models_run s ?_,
    fun s fuel hfuel => hruns s ?_, hperm.nodup_iff.2 h.plain.nodup_assignments,
    hperm.length_eq.trans (length_assignments [p]),
    fun m => hperm.mem_iff.trans h.plain.mem_assignments, fun m hm => ?_, fun m hm => ?_⟩
  · rwa [List.length_map] at hfuel
  · rwa [List.length_map] at hfuel
  · exact ((h.mem_models m).1 hm).2 p hp
  · have htrue := ((hmem' m).1 hm).2 _ (List.mem_singleton_self _)
    have hq := h.complement.wellFormed _ (List.mem_singleton_self _)
    have hqone := h.complement.oneBit _ (List.mem_singleton_self _)
    rw [evaluate_eq_true hq hqone] at htrue
    rw [evaluate_eq_ofBool (h.wellFormed p hp) hone]
    exact (Term.evaluate_mkUnary_not (h.wellFormed p hp) hone m.bindings false).1 htrue

/-- A comparison, the negation of which is the opposite comparison. -/
theorem models_fork_compared :
    let p : Value := ⟨.compare .ugt (.sym "x" 2) (.zeroExtend 1 (.sym "y" 1))⟩
    Enumerable 3 [p] ∧ ∃ (q : Value) (ms ms' : List Model), p.not = .ok q
      ∧ ((models (backend 3) 9 [p] 0).run []).1 = .ok (some ms)
      ∧ ((models (backend 3) 9 [q] 0).run []).1 = .ok (some ms')
      ∧ (ms ++ ms').Nodup ∧ (ms ++ ms').length = 8 := by
  intro p
  have h : Enumerable 3 [p] := ⟨by decide, by decide, by decide, by decide, by decide, by decide⟩
  obtain ⟨q, ms, ms', hq, hms, hms', hnodup, hlength, -⟩ := models_fork h
  have hbits : 2 ^ bits (symbols [p]) = 8 := by decide
  rw [hbits] at hlength
  have hle : ms.length < 9 ∧ ms'.length < 9 := by
    rw [List.length_append] at hlength
    omega
  exact ⟨h, q, ms, ms', hq, hms [] 9 hle.1, hms' [] 9 hle.2, hnodup, hlength⟩

end Enumeration

end SymWord
