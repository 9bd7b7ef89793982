import SymWord.Proofs.ModelEnumeration

/-!
# Satisfiability

A session of the exhaustive backend holds erased terms, in which every application and every array
read has become zero. An erased term mentions no bitvector that the term does not
(`mentions_erase`), so it can be evaluated under every assignment to the declared ones, and gives
what the term stands for with functions and arrays taken to be zero (`evaluate_erase`).

So a check of predicates succeeds, and its verdict says whether some bindings make them all hold
(`Checkable.check_verdict`). It does not matter that only the declared bitvectors are searched, and
only up to their widths: what a term stands for depends on nothing else (`denote_congr`).
-/

namespace SymWord

/-- The same functions and arrays, and the same words for the bitvectors among the declarations. -/
structure Interpretation.AgreeOn (I J : Interpretation) (ds : List Declaration) : Prop where
  symbol : ∀ n w, .constant n w ∈ ds → Word.truncate (I.symbol n) w = Word.truncate (J.symbol n) w
  function : I.function = J.function
  array : I.array = J.array

theorem Interpretation.AgreeOn.subset {I J : Interpretation} {ds ds' : List Declaration}
    (h : I.AgreeOn J ds) (hs : ds' ⊆ ds) : I.AgreeOn J ds' :=
  ⟨fun n w hd => h.symbol n w (hs hd), h.function, h.array⟩

namespace Term

variable {I J : Interpretation}

mutual

theorem denote_congr : ∀ (t : Term), I.AgreeOn J t.mentions → t.denote I = t.denote J
  | lit _ _, _ => rfl
  | sym n w, h => h.symbol n w (List.mem_singleton_self _)
  | unary _ t, h => by rw [denote, denote, denote_congr t h]
  | binary _ l r, h => by
    rw [denote, denote, denote_congr l (h.subset (List.subset_append_left _ _)),
      denote_congr r (h.subset (List.subset_append_right _ _))]
  | compare _ l r, h => by
    rw [denote, denote, denote_congr l (h.subset (List.subset_append_left _ _)),
      denote_congr r (h.subset (List.subset_append_right _ _))]
  | extract _ _ t, h => by rw [denote, denote, denote_congr t h]
  | concat ts, h => by rw [denote, denote, denoteParts_congr_mentions ts 0 h]
  | zeroExtend _ t, h => by rw [denote, denote, denote_congr t h]
  | signExtend _ t, h => by rw [denote, denote, denote_congr t h]
  | apply _ ts _, h => by
    rw [denote, denote, denoteList_congr ts (h.subset (List.subset_cons_self _ _)), h.function]
  | select _ t _, h => by
    rw [denote, denote, denote_congr t (h.subset (List.subset_cons_self _ _)), h.array]

theorem denoteParts_congr_mentions : ∀ (ts : List Term) (high : Nat),
    I.AgreeOn J (listMentions ts) → denoteParts I high ts = denoteParts J high ts
  | [], _, _ => rfl
  | t :: ts, high, h => by
    rw [denoteParts, denoteParts, denote_congr t (h.subset (List.subset_append_left _ _)),
      denoteParts_congr_mentions ts _ (h.subset (List.subset_append_right _ _))]

theorem denoteList_congr : ∀ (ts : List Term), I.AgreeOn J (listMentions ts) →
    denoteList I ts = denoteList J ts
  | [], _ => rfl
  | t :: ts, h => by
    rw [denoteList, denoteList, denote_congr t (h.subset (List.subset_append_left _ _)),
      denoteList_congr ts (h.subset (List.subset_append_right _ _))]

end

/-! ## Erased terms -/

mutual

theorem width_erase : ∀ (t : Term), t.erase.width = t.width
  | lit _ _ => rfl
  | sym _ _ => rfl
  | unary _ t => width_erase t
  | binary _ l _ => width_erase l
  | compare _ _ _ => rfl
  | extract _ _ _ => rfl
  | concat ts => totalWidth_eraseList ts
  | zeroExtend bits t => by rw [erase, width, width, width_erase t]
  | signExtend bits t => by rw [erase, width, width, width_erase t]
  | apply _ _ _ => rfl
  | select _ _ _ => rfl

theorem totalWidth_eraseList : ∀ (ts : List Term), totalWidth (eraseList ts) = totalWidth ts
  | [] => rfl
  | t :: ts => by rw [eraseList, totalWidth, totalWidth, width_erase t, totalWidth_eraseList ts]

end

mutual

theorem WellFormed.erase : ∀ {t : Term}, t.WellFormed → t.erase.WellFormed
  | lit _ _, h => h
  | sym _ _, h => h
  | unary _ t, h => WellFormed.erase (t := t) h
  | binary _ l r, h | compare _ l r, h =>
    ⟨h.1.erase, h.2.1.erase, by rw [width_erase, width_erase, h.2.2]⟩
  | extract _ _ t, h => ⟨h.1.erase, h.2.1, by rw [width_erase]; exact h.2.2⟩
  | concat ts, h => by
    refine ⟨?_, h.2.1.eraseList, by rw [totalWidth_eraseList]; exact h.2.2⟩
    cases ts with
    | nil => exact absurd rfl h.1
    | cons t ts => exact List.cons_ne_nil _ _
  | zeroExtend _ t, h | signExtend _ t, h => ⟨h.1.erase, by rw [width_erase]; exact h.2⟩
  | apply _ _ _, h | select _ _ _, h => wellFormed_zero h.2

theorem AllWellFormed.eraseList : ∀ {ts : List Term}, AllWellFormed ts →
    AllWellFormed (Term.eraseList ts)
  | [], _ => trivial
  | _ :: _, h => ⟨h.1.erase, h.2.eraseList⟩

end

section

variable (b : Bindings)

mutual

/-- Bindings say nothing of functions and arrays, which are taken to be zero. -/
theorem denote_erase : ∀ (t : Term), t.erase.denote (.ofBindings b) = t.denote (.ofBindings b)
  | lit _ _ => rfl
  | sym _ _ => rfl
  | unary _ t => by rw [erase, denote, denote, denote_erase t, width_erase]
  | binary _ l r => by rw [erase, denote, denote, denote_erase l, denote_erase r, width_erase]
  | compare _ l r => by rw [erase, denote, denote, denote_erase l, denote_erase r, width_erase]
  | extract _ _ t => by rw [erase, denote, denote, denote_erase t]
  | concat ts => by rw [erase, denote, denote, denoteParts_eraseList ts]
  | zeroExtend _ t => by rw [erase, denote, denote, denote_erase t]
  | signExtend _ t => by rw [erase, denote, denote, denote_erase t, width_erase]
  | apply _ _ w => (Word.truncate_of_lt (Nat.two_pow_pos w)).symm
  | select _ _ w => (Word.truncate_of_lt (Nat.two_pow_pos w)).symm

theorem denoteParts_eraseList : ∀ (ts : List Term) (high : Nat),
    denoteParts (.ofBindings b) high (eraseList ts) = denoteParts (.ofBindings b) high ts
  | [], _ => rfl
  | t :: ts, high => by
    rw [eraseList, denoteParts, denoteParts, width_erase, denote_erase t, denoteParts_eraseList ts]

end

end

mutual

theorem mentions_erase : ∀ (t : Term), ∀ d ∈ t.erase.mentions, d.isConstant = true ∧ d ∈ t.mentions
  | lit _ _, d, hd => by simp [erase, mentions] at hd
  | sym _ _, d, hd => by
    refine ⟨?_, hd⟩
    rw [List.mem_singleton.1 hd]
    rfl
  | unary _ t, d, hd => mentions_erase t d hd
  | binary _ l r, d, hd => by
    rcases List.mem_append.1 hd with hd | hd
    · exact (mentions_erase l d hd).imp_right (List.mem_append_left _)
    · exact (mentions_erase r d hd).imp_right (List.mem_append_right _)
  | compare _ l r, d, hd => by
    rcases List.mem_append.1 hd with hd | hd
    · exact (mentions_erase l d hd).imp_right (List.mem_append_left _)
    · exact (mentions_erase r d hd).imp_right (List.mem_append_right _)
  | extract _ _ t, d, hd => mentions_erase t d hd
  | concat ts, d, hd => listMentions_eraseList ts d hd
  | zeroExtend _ t, d, hd => mentions_erase t d hd
  | signExtend _ t, d, hd => mentions_erase t d hd
  | apply _ _ _, d, hd => by simp [erase, zero, mentions] at hd
  | select _ _ _, d, hd => by simp [erase, zero, mentions] at hd

theorem listMentions_eraseList : ∀ (ts : List Term), ∀ d ∈ listMentions (eraseList ts),
    d.isConstant = true ∧ d ∈ listMentions ts
  | [], d, hd => by simp [eraseList, listMentions] at hd
  | t :: ts, d, hd => by
    rcases List.mem_append.1 hd with hd | hd
    · exact (mentions_erase t d hd).imp_right (List.mem_append_left _)
    · exact (listMentions_eraseList ts d hd).imp_right (List.mem_append_right _)

end

theorem evaluate_erase {t : Term} {b : Bindings}
    (h : ∀ n w, .constant n w ∈ t.mentions → (b n).isSome) :
    t.erase.evaluate b = some (t.denote (.ofBindings b)) := by
  rw [evaluate_of_bound (Interpretation.ofBindings_extends b), denote_erase]
  intro d hd
  obtain ⟨hconstant, hmem⟩ := mentions_erase t d hd
  obtain ⟨n, w, rfl⟩ := Declaration.eq_constant hconstant
  exact h n w hmem

end Term

/-! ## Verdicts -/

def Verdict.isSatisfiable : Verdict → Bool
  | .satisfiable _ => true
  | .unsatisfiable => false

theorem Exhaustive.isSatisfiable_verdict (cs : List (String × Nat)) (found : Option Nat) :
    (verdict cs found).isSatisfiable = found.isSome := by
  cases found <;> rfl

namespace Query

open Exhaustive Enumeration

/-- Predicates of which the exhaustive backend can try all assignments. -/
structure Checkable (maxBits : Nat) (ps : List Value) : Prop extends Admissible ps where
  wellFormed : ∀ p ∈ ps, p.term.WellFormed
  fits : bits (symbols ps) ≤ maxBits
  maxBits_lt : maxBits < Width.limit

/-- The numbers of the assignments under which the erased predicates hold. -/
def erasedSolutions (ps : List Value) : List Nat :=
  solutions (declared ps) ((assertions ps).map Term.erase)

/-- The predicates hold under the numbers of the model, with every application and every array read
replaced by zero. -/
def HoldsUnder (m : Model) (ps : List Value) : Prop :=
  ∀ p ∈ ps, p.term.erase.evaluate m.bindings = some 1

variable {maxBits : Nat} {ps : List Value}

theorem exists_of_mem_assertions {t : Term} (h : t ∈ (assertions ps).map Term.erase) :
    ∃ p ∈ ps, t = p.term.erase := by
  obtain ⟨u, hu, rfl⟩ := List.mem_map.1 h
  obtain ⟨p, hp, rfl⟩ := List.mem_map.1 hu
  exact ⟨p, (List.mem_filter.1 hp).1, rfl⟩

namespace Checkable

theorem pos (h : Checkable maxBits ps) : ∀ c ∈ symbols ps, 0 < c.2 :=
  fun c hc => (valid_of_mem_symbols h.wellFormed c hc).1

theorem evaluate_erase (h : Checkable maxBits ps) {p : Value} (hp : p ∈ ps) (k : Nat) :
    p.term.erase.evaluate (bindings (assignment (symbols ps) k))
      = some (p.term.denote (.ofBindings (bindings (assignment (symbols ps) k)))) := by
  refine Term.evaluate_erase fun n w hd => ?_
  obtain ⟨v, -, hv⟩ := word_assignment (nodup_symbols h.consistent) k (n, w)
    (mem_symbols.2 ⟨p, hp, hd⟩)
  exact Option.isSome_of_eq_some hv

/-- The predicates that are literally true hold anyway. -/
theorem satisfies_iff (h : Checkable maxBits ps) (k : Nat) :
    satisfies (declared ps) ((assertions ps).map Term.erase) k = true ↔
      ∀ p ∈ ps, p.term.denote (.ofBindings (bindings (assignment (symbols ps) k))) = 1 := by
  unfold satisfies
  rw [List.all_eq_true, ← symbols]
  constructor
  · intro hall p hp
    by_cases hone : p.toNat? = some 1
    · rw [Value.term_of_toNat? hone, Term.denote]
    have hmem : p.term.erase ∈ (assertions ps).map Term.erase :=
      List.mem_map_of_mem (List.mem_map_of_mem (List.mem_filter.2 ⟨hp, by simpa using hone⟩))
    have hne := hall _ hmem
    rw [h.evaluate_erase hp] at hne
    have hlt := Term.denote_lt (.ofBindings (bindings (assignment (symbols ps) k)))
      (h.wellFormed p hp)
    have hw : p.term.width = 1 := h.oneBit p hp
    simp only [hw, bne_iff_ne, ne_eq, Option.some.injEq] at hlt hne
    omega
  · intro hall t ht
    obtain ⟨p, hp, rfl⟩ := exists_of_mem_assertions ht
    rw [h.evaluate_erase hp, hall p hp]
    rfl

theorem mem_erasedSolutions (h : Checkable maxBits ps) {k : Nat} :
    k ∈ erasedSolutions ps ↔ k < 2 ^ bits (symbols ps) ∧
      ∀ p ∈ ps, p.term.denote (.ofBindings (bindings (assignment (symbols ps) k))) = 1 := by
  unfold erasedSolutions solutions
  rw [List.mem_filter, List.mem_range, h.satisfies_iff]
  rfl

theorem check_run (h : Checkable maxBits ps) (s : List Term) :
    ((check (backend maxBits) ps).run s).1
      = .ok (verdict (symbols ps) (erasedSolutions ps).head?) := by
  have hholds : ∀ j, j < 2 ^ bits (symbols ps) →
      holds (bindings (assignment (symbols ps) j)) ((assertions ps).map Term.erase)
        = .ok (satisfies (declared ps) ((assertions ps).map Term.erase) j) := fun j _ => by
    refine holds_eq fun t ht => ?_
    obtain ⟨p, hp, rfl⟩ := exists_of_mem_assertions ht
    exact ⟨(h.wellFormed p hp).erase.evaluationCounts_fit _, _, h.evaluate_erase hp j⟩
  rw [check, Call.run_bind_ok (prepare_backend h.toAdmissible s), Enumeration.check_run,
    check_eq rfl (nodup_symbols h.consistent) h.pos h.fits h.maxBits_lt hholds,
    erasedSolutions, solutions, List.head?_filter]
  rfl

/-- Numbers under which the predicates hold can be cut down to the declared bitvectors. -/
theorem exists_solution_iff (h : Checkable maxBits ps) :
    (∃ k, k ∈ erasedSolutions ps)
      ↔ ∃ b : Bindings, ∀ p ∈ ps, p.term.denote (.ofBindings b) = 1 := by
  constructor
  · rintro ⟨k, hk⟩
    exact ⟨_, (h.mem_erasedSolutions.1 hk).2⟩
  · rintro ⟨b, hb⟩
    obtain ⟨k, hk, hword⟩ := exists_assignment (fun n => (b n).getD 0) (nodup_symbols h.consistent)
    refine ⟨k, h.mem_erasedSolutions.2 ⟨hk, fun p hp => ?_⟩⟩
    rw [← hb p hp]
    refine Term.denote_congr p.term ⟨fun n w hd => ?_, rfl, rfl⟩
    have hn := hword (n, w) (mem_symbols.2 ⟨p, hp, hd⟩)
    simp only [Interpretation.ofBindings, hn, Option.getD_some]
    exact Word.truncate_of_lt (Word.truncate_lt _ w)

/-- The check succeeds, and finds out whether the predicates can hold at once. -/
theorem check_verdict (h : Checkable maxBits ps) :
    ∃ v, (∀ s, ((check (backend maxBits) ps).run s).1 = .ok v) ∧
      (v.isSatisfiable = true
        ↔ ∃ b : Bindings, ∀ p ∈ ps, p.term.denote (.ofBindings b) = 1) := by
  refine ⟨_, h.check_run, ?_⟩
  rw [isSatisfiable_verdict, ← h.exists_solution_iff, List.isSome_head?]
  exact ⟨fun hne => List.exists_mem_of_ne_nil _ hne, fun ⟨k, hk⟩ => List.ne_nil_of_mem hk⟩

/-- An assignment makes the predicates hold when its number is among the solutions. -/
theorem holdsUnder_iff (h : Checkable maxBits ps) {m : Model} (hm : Assigns (symbols ps) m) :
    HoldsUnder m ps ↔ counter (symbols ps) m.bindings ∈ erasedSolutions ps := by
  have hnd := nodup_symbols h.consistent
  have hbindings : m.bindings
      = bindings (assignment (symbols ps) (counter (symbols ps) m.bindings)) := by
    rw [← bindings_numbered hnd h.pos, numbered_counter hnd h.pos hm]
  rw [h.mem_erasedSolutions, ← hbindings]
  refine ⟨fun hall => ⟨counter_lt hm.word, fun p hp => ?_⟩, fun hall p hp => ?_⟩
  · have heval := h.evaluate_erase hp (counter (symbols ps) m.bindings)
    rw [← hbindings, hall p hp, Option.some.injEq] at heval
    exact heval.symm
  · rw [hbindings, h.evaluate_erase hp, ← hbindings, hall.2 p hp]

theorem counter_le_of_head? (h : Checkable maxBits ps) {k : Nat}
    (hk : (erasedSolutions ps).head? = some k) {m : Model} (hm : Assigns (symbols ps) m)
    (hholds : HoldsUnder m ps) : k ≤ counter (symbols ps) m.bindings := by
  obtain ⟨rest, hrest⟩ := List.head?_eq_some_iff.1 hk
  have hpair : (erasedSolutions ps).Pairwise (· < ·) := pairwise_solutions
  have hmem := (h.holdsUnder_iff hm).1 hholds
  rw [hrest] at hpair hmem
  rcases List.mem_cons.1 hmem with heq | hmem
  · exact Nat.le_of_eq heq.symm
  · exact Nat.le_of_lt ((List.pairwise_cons.1 hpair).1 _ hmem)

end Checkable

/-- The check always comes to a verdict. It finds no model exactly when no assignment to the
declared bitvectors makes the erased predicates hold, and otherwise the assignment with the least
number. -/
theorem check_least {maxBits : Nat} {ps : List Value} (h : Checkable maxBits ps) :
    ∃ v, (∀ s, ((check (backend maxBits) ps).run s).1 = .ok v)
      ∧ (v = .unsatisfiable ↔ ∀ m, Assigns (symbols ps) m → ¬HoldsUnder m ps)
      ∧ ∀ m, v = .satisfiable m → Assigns (symbols ps) m ∧ HoldsUnder m ps
        ∧ ∀ m', Assigns (symbols ps) m' → HoldsUnder m' ps →
          counter (symbols ps) m.bindings ≤ counter (symbols ps) m'.bindings := by
  have hnd := nodup_symbols h.consistent
  refine ⟨_, h.check_run, ?_⟩
  rcases hhead : (erasedSolutions ps).head? with _ | k
  · refine ⟨⟨fun _ m hm hholds => ?_, fun _ => rfl⟩, fun m hm => (by cases hm)⟩
    have hmem := (h.holdsUnder_iff hm).1 hholds
    rw [List.head?_eq_none_iff.1 hhead] at hmem
    exact absurd hmem List.not_mem_nil
  · have hmem := List.mem_of_head? hhead
    have hlt := (h.mem_erasedSolutions.1 hmem).1
    have hassigns := assigns_numbered hnd h.pos k
    have hcounter := counter_numbered hnd h.pos hlt
    have hholds : HoldsUnder (numbered (symbols ps) k) ps :=
      (h.holdsUnder_iff hassigns).2 (by rwa [hcounter])
    refine ⟨⟨fun hv => (by cases hv), fun hnone => absurd hholds (hnone _ hassigns)⟩, ?_⟩
    rintro _ ⟨⟩
    refine ⟨hassigns, hholds, fun m' hm' hholds' => ?_⟩
    rw [hcounter]
    exact h.counter_le_of_head? hhead hm' hholds'

/-- An array read and an application taken to be zero. The index and the argument are searched all
the same, and the first of them takes the lowest bits. -/
theorem check_least_erased :
    let ps : List Value := [⟨.compare .ult (.select "mem" (.sym "a" 2) 2) (.sym "x" 2)⟩,
      ⟨.compare .eq (.apply "f" [.sym "c" 1] 2) (.extract 2 1 (.sym "y" 3))⟩, .ofBool true]
    Checkable 8 ps ∧ ∃ m, (∀ s, ((check (backend 8) ps).run s).1 = .ok (.satisfiable m))
      ∧ m.text = "a: 0x0, c: 0x0, x: 0x1, y: 0x0"
      ∧ ∀ m', Assigns (symbols ps) m' → HoldsUnder m' ps →
        counter (symbols ps) m.bindings ≤ counter (symbols ps) m'.bindings := by
  intro ps
  have h : Checkable 8 ps :=
    ⟨⟨by decide, by unfold Consistent; decide⟩, by decide, by decide, by decide⟩
  obtain ⟨v, hv, -, hleast⟩ := check_least h
  have hrun : ((check (backend 8) ps).run []).1 = .ok (.satisfiable (numbered (symbols ps) 4)) := by
    rfl
  obtain rfl : v = .satisfiable (numbered (symbols ps) 4) :=
    Except.ok.inj ((hv []).symm.trans hrun)
  exact ⟨h, _, hv, by decide, (hleast _ rfl).2.2⟩

end Query

end SymWord
