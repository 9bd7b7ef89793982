import SymWord.Proofs.Assignments
import SymWord.Proofs.RegularTerms
import SymWord.Solver.Enumeration

/-!
# What one search finds

Where all assertions can be evaluated, a check of the exhaustive backend finds the assignment with
the least number under which they hold (`check_eq`). The blocking clause for a model holds under the
models with another number (`blockingClause_counter`).
-/

namespace SymWord

theorem Declaration.Bound.isConstant {b : Bindings} {d : Declaration} (h : d.Bound b) :
    d.isConstant = true := by
  cases d with
  | constant => rfl
  | function => exact h.elim
  | array => exact h.elim

namespace Term

variable {b : Bindings}

mutual

/-- There is nothing to erase in a term without functions and arrays. -/
theorem erase_eq : ∀ (t : Term), (∀ d ∈ t.mentions, d.isConstant = true) → t.erase = t
  | lit _ _, _ => rfl
  | sym _ _, _ => rfl
  | unary op t, h => by rw [erase, erase_eq t h]
  | binary op l r, h => by
    rw [erase, erase_eq l fun d hd => h d (List.mem_append_left _ hd),
      erase_eq r fun d hd => h d (List.mem_append_right _ hd)]
  | compare op l r, h => by
    rw [erase, erase_eq l fun d hd => h d (List.mem_append_left _ hd),
      erase_eq r fun d hd => h d (List.mem_append_right _ hd)]
  | extract high low t, h => by rw [erase, erase_eq t h]
  | concat ts, h => by rw [erase, eraseList_eq ts h]
  | zeroExtend bits t, h => by rw [erase, erase_eq t h]
  | signExtend bits t, h => by rw [erase, erase_eq t h]
  | apply f ts w, h => by cases h _ List.mem_cons_self
  | select a t w, h => by cases h _ List.mem_cons_self

theorem eraseList_eq : ∀ (ts : List Term), (∀ d ∈ listMentions ts, d.isConstant = true) →
    eraseList ts = ts
  | [], _ => rfl
  | t :: ts, h => by
    rw [eraseList, erase_eq t fun d hd => h d (List.mem_append_left _ hd),
      eraseList_eq ts fun d hd => h d (List.mem_append_right _ hd)]

end

theorem erase_of_evaluate {t : Term} {v : Nat} (h : t.evaluate b = some v) : t.erase = t :=
  erase_eq t fun d hd => (bound_of_evaluate t h d hd).isConstant

mutual

theorem valid_of_mem_mentions : ∀ (t : Term), t.WellFormed → ∀ {n : String} {w : Nat},
    .constant n w ∈ t.mentions → Width.Valid w
  | lit _ _, _, _, _, hd => by simp [mentions] at hd
  | sym _ _, h, _, _, hd => by
    rw [mentions, List.mem_singleton] at hd
    cases hd
    exact h
  | unary _ t, h, _, _, hd => valid_of_mem_mentions t h hd
  | binary _ l r, h, _, _, hd => by
    rcases List.mem_append.1 hd with hd | hd
    · exact valid_of_mem_mentions l h.1 hd
    · exact valid_of_mem_mentions r h.2.1 hd
  | compare _ l r, h, _, _, hd => by
    rcases List.mem_append.1 hd with hd | hd
    · exact valid_of_mem_mentions l h.1 hd
    · exact valid_of_mem_mentions r h.2.1 hd
  | extract _ _ t, h, _, _, hd => valid_of_mem_mentions t h.1 hd
  | concat ts, h, _, _, hd => valid_of_mem_listMentions ts h.2.1 hd
  | zeroExtend _ t, h, _, _, hd => valid_of_mem_mentions t h.1 hd
  | signExtend _ t, h, _, _, hd => valid_of_mem_mentions t h.1 hd
  | apply _ ts _, h, _, _, hd => by
    rcases List.mem_cons.1 hd with hd | hd
    · cases hd
    · exact valid_of_mem_listMentions ts h.1 hd
  | select _ t _, h, _, _, hd => by
    rcases List.mem_cons.1 hd with hd | hd
    · cases hd
    · exact valid_of_mem_mentions t h.1 hd

theorem valid_of_mem_listMentions : ∀ (ts : List Term), AllWellFormed ts → ∀ {n : String} {w : Nat},
    .constant n w ∈ listMentions ts → Width.Valid w
  | [], _, _, _, hd => by simp [listMentions] at hd
  | t :: ts, h, _, _, hd => by
    rcases List.mem_append.1 hd with hd | hd
    · exact valid_of_mem_mentions t h.1 hd
    · exact valid_of_mem_listMentions ts h.2 hd

end

/-- A disjunction of single bits. -/
theorem evaluate_foldl_or {α : Type} {f : α → Term} {g : α → Bool} :
    ∀ (xs : List α) {t : Term} {x : Bool}, (∀ y ∈ xs, (f y).evaluate b = some (g y).toNat) →
      t.width = 1 → t.evaluate b = some x.toNat →
        ((xs.map f).foldl (binary .or) t).evaluate b = some (x || xs.any g).toNat
  | [], t, x, _, _, ht => by simpa using ht
  | y :: ys, t, x, h, hw, ht => by
    have hy := h y List.mem_cons_self
    have hor : (binary .or t (f y)).evaluate b = some (x || g y).toNat := by
      simp only [evaluate, ht, hy, hw]
      cases x <;> cases g y <;> decide
    have ih := evaluate_foldl_or ys (t := binary .or t (f y))
      (fun z hz => h z (List.mem_cons_of_mem _ hz)) hw hor
    rw [List.map_cons, List.foldl_cons, ih, List.any_cons, Bool.or_assoc]

theorem foldl_or_fits : ∀ (us : List Term) {t : Term}, Count.AllFit t.widthCounts →
    Count.AllFit (t.evaluationCounts b) → (∀ u ∈ us, Count.AllFit (u.evaluationCounts b)) →
      Count.AllFit ((us.foldl (binary .or) t).evaluationCounts b)
  | [], _, _, ht, _ => ht
  | u :: us, t, hw, ht, h => by
    rw [List.forall_mem_cons] at h
    have hor : Count.AllFit ((binary .or t u).evaluationCounts b) := by
      rw [evaluationCounts, Count.allFit_append]
      exact ⟨ht, (Count.allFit_append.2 ⟨h.1, hw.whenSome⟩).whenSome⟩
    exact foldl_or_fits us (t := binary .or t u) hw hor h.2

end Term

namespace Exhaustive

variable {cs : List (String × Nat)} {ts : List Term} {b : Bindings}

/-- The term has a number that can be computed. -/
structure Evaluable (b : Bindings) (t : Term) : Prop where
  fits : Count.AllFit (t.evaluationCounts b)
  some : ∃ v, t.evaluate b = some v

theorem holds_eq : ∀ {ts : List Term}, (∀ t ∈ ts, Evaluable b t) →
    holds b ts = .ok (ts.all fun t => t.evaluate b != some 0)
  | [], _ => rfl
  | t :: ts, h => by
    obtain ⟨hfits, v, hv⟩ := h t List.mem_cons_self
    have ih := holds_eq fun u hu => h u (List.mem_cons_of_mem _ hu)
    rw [holds, Count.form_eq_ok_iff.2 hfits, hv, List.all_cons, hv]
    by_cases h0 : v = 0
    · simp [h0, bind, Except.bind]
    · simp [h0, ih, bind, Except.bind]

theorem search_eq {P : Nat → Bool} : ∀ (n k : Nat),
    (∀ j, k ≤ j → j < k + n → holds (bindings (assignment cs j)) ts = .ok (P j)) →
      search cs ts n k = .ok ((List.range' k n).find? P)
  | 0, _, _ => rfl
  | n + 1, k, h => by
    have ih := search_eq n (k + 1) fun j hj hj' => h j (by omega) (by omega)
    rw [search, h k (Nat.le_refl k) (by omega), List.range'_succ, List.find?_cons, ih]
    cases P k <;> rfl

/-- The verdict for the number found. -/
def verdict (cs : List (String × Nat)) : Option Nat → Verdict
  | some k => .satisfiable (numbered cs k)
  | none => .unsatisfiable

theorem check_eq {maxBits : Nat} {ds : List Declaration} {P : Nat → Bool}
    (hcs : constants ds = cs) (hnd : (cs.map Prod.fst).Nodup) (hpos : ∀ c ∈ cs, 0 < c.2)
    (hbits : bits cs ≤ maxBits) (hmax : maxBits < Width.limit)
    (h : ∀ j, j < 2 ^ bits cs → holds (bindings (assignment cs j)) ts = .ok (P j)) :
    check maxBits ds ts = .ok (verdict cs ((List.range (2 ^ bits cs)).find? P)) := by
  have hsearch : search cs ts (2 ^ bits cs) 0 = .ok ((List.range (2 ^ bits cs)).find? P) := by
    rw [List.range_eq_range']
    exact search_eq _ 0 fun j _ hj => h j (by omega)
  unfold check
  simp only [hcs, totalBits_eq, Word.size_eq]
  rw [if_neg (Nat.not_le.2 (Nat.lt_of_le_of_lt hbits hmax)), if_neg (Nat.not_lt.2 hbits), hsearch]
  cases (List.range (2 ^ bits cs)).find? P with
  | none => rfl
  | some k =>
    simp only [bind, Except.bind, model_empty hnd hpos]
    rfl

theorem word_bindings {m : Model}
    (h : ∀ c ∈ cs, ∃ v, v < 2 ^ c.2 ∧ m.get? c.1 = some ⟨.lit v c.2⟩) :
    ∀ c ∈ cs, ∃ v, v < 2 ^ c.2 ∧ m.bindings c.1 = some v := by
  intro c hc
  obtain ⟨v, hv, hget⟩ := h c hc
  exact ⟨v, hv, by simp [Model.bindings, hget, Value.toNat?, Term.value?]⟩

/-! ## Blocking clauses -/

open Enumeration

theorem differs?_eq {m : Model} {n : String} {w v : Nat} (h : m.get? n = some ⟨.lit v w⟩) :
    differs? m (.constant n w) = some (.compare .ne (.sym n w) (.lit v w)) := by
  simp [differs?, Declaration.constant?, h]

theorem filterMap_differs? {m : Model} {ds : List Declaration}
    (hds : ∀ d ∈ ds, d.isConstant = true)
    (hm : ∀ c ∈ constants ds, ∃ v, v < 2 ^ c.2 ∧ m.get? c.1 = some ⟨.lit v c.2⟩) :
    ds.filterMap (differs? m) = (constants ds).map fun c =>
      .compare .ne (.sym c.1 c.2) (.lit ((m.bindings c.1).getD 0) c.2) := by
  induction ds with
  | nil => rfl
  | cons d ds ih =>
    cases d with
    | function => cases hds _ List.mem_cons_self
    | array => cases hds _ List.mem_cons_self
    | constant n w =>
      have hcons : constants (.constant n w :: ds) = (n, w) :: constants ds := rfl
      rw [hcons] at hm ⊢
      obtain ⟨v, -, hv⟩ := hm (n, w) List.mem_cons_self
      have hb : m.bindings n = some v := by simp [Model.bindings, hv, Value.toNat?, Term.value?]
      rw [List.filterMap_cons, differs?_eq hv, List.map_cons, hb,
        ih (fun d hd => hds d (List.mem_cons_of_mem _ hd))
          fun c hc => hm c (List.mem_cons_of_mem _ hc)]
      rfl

/-- The clause is set where some bitvector differs from the model. -/
theorem blockingClause_evaluate {m : Model} {ds : List Declaration}
    (hds : ∀ d ∈ ds, d.isConstant = true)
    (hm : ∀ c ∈ constants ds, ∃ v, v < 2 ^ c.2 ∧ m.get? c.1 = some ⟨.lit v c.2⟩)
    (hb : ∀ c ∈ constants ds, ∃ v, v < 2 ^ c.2 ∧ b c.1 = some v) :
    (blockingClause ds m).evaluate b
      = some ((constants ds).any fun c => b c.1 != m.bindings c.1).toNat := by
  have hdiffers : ∀ c ∈ constants ds,
      (Term.compare .ne (.sym c.1 c.2) (.lit ((m.bindings c.1).getD 0) c.2)).evaluate b
        = some (b c.1 != m.bindings c.1).toNat := by
    intro c hc
    obtain ⟨v, hv, hget⟩ := hm c hc
    obtain ⟨v', hv', hbc⟩ := hb c hc
    have hmc : m.bindings c.1 = some v := by
      simp [Model.bindings, hget, Value.toNat?, Term.value?]
    have hne : (some v' != some v) = (v' != v) := rfl
    simp [Term.evaluate, Term.width, hbc, hmc, hne, Comparison.eval, Comparison.onWords,
      Word.truncate_of_lt hv, Word.truncate_of_lt hv']
  rw [blockingClause, filterMap_differs? hds hm]
  cases hcs : constants ds with
  | nil => rfl
  | cons c cs =>
    rw [hcs] at hdiffers
    rw [List.map_cons, List.any_cons]
    exact Term.evaluate_foldl_or cs (fun y hy => hdiffers y (List.mem_cons_of_mem _ hy)) rfl
      (hdiffers c List.mem_cons_self)

theorem blockingClause_fits {m : Model} {ds : List Declaration}
    (hds : ∀ d ∈ ds, d.isConstant = true)
    (hm : ∀ c ∈ constants ds, ∃ v, v < 2 ^ c.2 ∧ m.get? c.1 = some ⟨.lit v c.2⟩) :
    Count.AllFit ((blockingClause ds m).evaluationCounts b) := by
  have hdiffers : ∀ t ∈ ds.filterMap (differs? m),
      Count.AllFit t.widthCounts ∧ Count.AllFit (t.evaluationCounts b) := by
    rw [filterMap_differs? hds hm]
    intro t ht
    obtain ⟨c, -, rfl⟩ := List.mem_map.1 ht
    simp [Term.evaluationCounts, Term.widthCounts, Count.whenSome]
  rw [blockingClause]
  split
  · exact Count.allFit_nil
  · rename_i t us heq
    rw [heq, List.forall_mem_cons] at hdiffers
    exact Term.foldl_or_fits us hdiffers.1.1 hdiffers.1.2 fun u hu => (hdiffers.2 u hu).2

/-- Two models differ in some bitvector unless they have the same number. -/
theorem any_differs {m m' : Model}
    (hm : ∀ c ∈ cs, ∃ v, v < 2 ^ c.2 ∧ m.get? c.1 = some ⟨.lit v c.2⟩)
    (hm' : ∀ c ∈ cs, ∃ v, v < 2 ^ c.2 ∧ m'.get? c.1 = some ⟨.lit v c.2⟩) :
    (cs.any fun c => m.bindings c.1 != m'.bindings c.1)
      = (counter cs m.bindings != counter cs m'.bindings) := by
  rw [Bool.eq_iff_iff, List.any_eq_true, bne_iff_ne]
  constructor
  · rintro ⟨c, hc, hne⟩ heq
    have hget : m.get? c.1 = m'.get? c.1 := by
      rw [← word?_counter hm (List.mem_map_of_mem hc), heq,
        word?_counter hm' (List.mem_map_of_mem hc)]
    simp [Model.bindings, hget] at hne
  · intro hne
    refine Decidable.by_contra fun hall => hne (counter_congr fun c hc => ?_)
    exact Decidable.by_contra fun hc' => hall ⟨c, hc, bne_iff_ne.2 hc'⟩

/-- The clause is set under the models with another number. -/
theorem blockingClause_counter {m m' : Model} {ds : List Declaration}
    (hds : ∀ d ∈ ds, d.isConstant = true)
    (hm : ∀ c ∈ constants ds, ∃ v, v < 2 ^ c.2 ∧ m.get? c.1 = some ⟨.lit v c.2⟩)
    (hm' : ∀ c ∈ constants ds, ∃ v, v < 2 ^ c.2 ∧ m'.get? c.1 = some ⟨.lit v c.2⟩) :
    (blockingClause ds m).evaluate m'.bindings
      = some (counter (constants ds) m'.bindings != counter (constants ds) m.bindings).toNat := by
  rw [blockingClause_evaluate hds hm (word_bindings hm'), any_differs hm' hm]

end Exhaustive

end SymWord
