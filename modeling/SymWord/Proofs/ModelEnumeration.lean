import SymWord.Proofs.Concolic
import SymWord.Proofs.ExhaustiveSearch
import SymWord.Proofs.QueryDeclarations

/-!
# Enumeration with the exhaustive backend

The session holds the predicates and a blocking clause for each model found so far. The solutions,
listed by number, fall into those found and the rest, and exactly those found are blocked
(`holds_blocked`). So each step finds the first of the rest and moves it to those found
(`advance_cons`), and the enumeration lists all solutions in order, up to its limit
(`collect_run`).
-/

namespace SymWord

namespace Call

variable {σ α β : Type}

theorem run_bind_ok {x : Call σ α} {f : α → Call σ β} {s s' : σ} {a : α}
    (h : x.run s = (.ok a, s')) : (x >>= f).run s = (f a).run s' := by
  rw [ExceptT.run_bind]
  simp only [bind, StateT.bind, h]

theorem run_bind_error {x : Call σ α} {f : α → Call σ β} {s s' : σ} {err : Error}
    (h : x.run s = (.error err, s')) : (x >>= f).run s = (.error err, s') := by
  rw [ExceptT.run_bind]
  simp only [bind, StateT.bind, h]
  rfl

theorem run_bind_eq_ok {x : Call σ α} {f : α → Call σ β} {s s' : σ} {b : β}
    (h : (x >>= f).run s = (.ok b, s')) :
    ∃ a s₁, x.run s = (.ok a, s₁) ∧ (f a).run s₁ = (.ok b, s') := by
  rcases hx : x.run s with ⟨r, s₁⟩
  cases r with
  | error err =>
    rw [run_bind_error hx] at h
    cases h
  | ok a =>
    rw [run_bind_ok hx] at h
    exact ⟨a, s₁, rfl, h⟩

theorem run_lift {x : StateM σ α} {s s' : σ} {a : α} (h : x.run s = (a, s')) :
    (liftM x : Call σ α).run s = (.ok a, s') := by
  show (Except.ok <$> x).run s = _
  rw [StateT.run_map, h]
  rfl

end Call

/-- A term of one bit whose free names are all declared. -/
structure Term.Over (ds : List Declaration) (t : Term) : Prop where
  wellFormed : t.WellFormed
  oneBit : t.width = 1
  mentions : t.mentions ⊆ ds

theorem Term.Over.evaluate {ds : List Declaration} {t : Term} {b : Bindings} (h : t.Over ds)
    (hb : ∀ d ∈ ds, d.Bound b) : ∃ x : Bool, t.evaluate b = some x.toNat := by
  have heval := evaluate_of_bound (Interpretation.ofBindings_extends b) t fun d hd =>
    hb d (h.mentions hd)
  have hlt := denote_lt (Interpretation.ofBindings b) h.wellFormed
  rw [h.oneBit, Nat.pow_one, Nat.lt_succ_iff, Nat.le_one_iff_eq_zero_or_eq_one] at hlt
  rcases hlt with h0 | h1
  · exact ⟨false, by rw [heval, h0]; rfl⟩
  · exact ⟨true, by rw [heval, h1]; rfl⟩

theorem Term.Over.evaluable {ds : List Declaration} {t : Term} {b : Bindings} (h : t.Over ds)
    (hb : ∀ d ∈ ds, d.Bound b) : Exhaustive.Evaluable b t := by
  obtain ⟨x, hx⟩ := h.evaluate hb
  exact ⟨h.wellFormed.evaluationCounts_fit b, _, hx⟩

namespace Enumeration

open Exhaustive

variable {maxBits : Nat} {ds : List Declaration} {ts : List Term}

/-- Declarations and assertions for which every assignment can be tried. -/
structure Searchable (maxBits : Nat) (ds : List Declaration) (ts : List Term) : Prop where
  constant : ∀ d ∈ ds, d.isConstant = true
  nodup : ((constants ds).map Prod.fst).Nodup
  pos : ∀ c ∈ constants ds, 0 < c.2
  fits : bits (constants ds) ≤ maxBits
  maxBits_lt : maxBits < Width.limit
  evaluable : ∀ t ∈ ts, ∀ k, Evaluable (bindings (assignment (constants ds) k)) t

/-- Whether all assertions hold under the assignment with number `k`. -/
def satisfies (ds : List Declaration) (ts : List Term) (k : Nat) : Bool :=
  ts.all fun t => t.evaluate (bindings (assignment (constants ds) k)) != some 0

/-- The numbers of the assignments under which all assertions hold. -/
def solutions (ds : List Declaration) (ts : List Term) : List Nat :=
  (List.range (2 ^ bits (constants ds))).filter (satisfies ds ts)

/-- The assertions and a blocking clause for each number found. -/
def blocked (ds : List Declaration) (ts : List Term) (found : List Nat) : List Term :=
  ts ++ found.map fun k => blockingClause ds (numbered (constants ds) k)

theorem mem_constants {ds : List Declaration} {c : String × Nat} :
    c ∈ constants ds ↔ .constant c.1 c.2 ∈ ds := by
  rw [constants, List.mem_filterMap]
  constructor
  · rintro ⟨d, hd, hc⟩
    cases d with
    | constant n w =>
      cases hc
      exact hd
    | function => cases hc
    | array => cases hc
  · exact fun hc => ⟨_, hc, rfl⟩

theorem bound_of_word (hds : ∀ d ∈ ds, d.isConstant = true) {b : Bindings}
    (hb : ∀ c ∈ constants ds, ∃ v, v < 2 ^ c.2 ∧ b c.1 = some v) : ∀ d ∈ ds, d.Bound b := by
  intro d hd
  obtain ⟨n, w, rfl⟩ := Declaration.eq_constant (hds d hd)
  obtain ⟨v, -, hv⟩ := hb (n, w) (mem_constants.2 hd)
  exact Option.isSome_of_eq_some hv

theorem word_assignment {cs : List (String × Nat)} (hnd : (cs.map Prod.fst).Nodup) (k : Nat) :
    ∀ c ∈ cs, ∃ v, v < 2 ^ c.2 ∧ bindings (assignment cs k) c.1 = some v := by
  intro c hc
  obtain ⟨v, hv, hword⟩ := word?_eq_some (k := k) hnd c hc
  exact ⟨v, hv, by rw [bindings, lookup_assignment, hword]; rfl⟩

theorem satisfies_iff (hds : ∀ d ∈ ds, d.isConstant = true)
    (hnd : ((constants ds).map Prod.fst).Nodup) (hts : ∀ t ∈ ts, t.Over ds) (k : Nat) :
    satisfies ds ts k = true
      ↔ ∀ t ∈ ts, t.evaluate (bindings (assignment (constants ds) k)) = some 1 := by
  rw [satisfies, List.all_eq_true]
  refine forall₂_congr fun t ht => ?_
  obtain ⟨x, hx⟩ := (hts t ht).evaluate (bound_of_word hds (word_assignment hnd k))
  rw [hx]
  cases x <;> simp

theorem lt_of_mem_solutions {k : Nat} (h : k ∈ solutions ds ts) : k < 2 ^ bits (constants ds) :=
  List.mem_range.1 (List.mem_filter.1 h).1

theorem pairwise_solutions : (solutions ds ts).Pairwise (· < ·) :=
  List.pairwise_lt_range.filter _

namespace Searchable

theorem clause_evaluate (h : Searchable maxBits ds ts) {j k : Nat}
    (hj : j < 2 ^ bits (constants ds)) (hk : k < 2 ^ bits (constants ds)) :
    (blockingClause ds (numbered (constants ds) k)).evaluate
      (bindings (assignment (constants ds) j)) = some (j != k).toNat := by
  rw [← bindings_numbered h.nodup h.pos, blockingClause_counter h.constant
    (assigns_numbered h.nodup h.pos k).word (assigns_numbered h.nodup h.pos j).word,
    counter_numbered h.nodup h.pos hj, counter_numbered h.nodup h.pos hk]

theorem holds_blocked (h : Searchable maxBits ds ts) {found : List Nat} {j : Nat}
    (hfound : ∀ k ∈ found, k < 2 ^ bits (constants ds)) (hj : j < 2 ^ bits (constants ds)) :
    holds (bindings (assignment (constants ds) j)) (blocked ds ts found)
      = .ok (satisfies ds ts j && !found.contains j) := by
  rw [holds_eq, blocked, List.all_append, List.all_map]
  · congr 2
    induction found with
    | nil => rfl
    | cons k found ih =>
      have hclause := h.clause_evaluate hj (hfound k List.mem_cons_self)
      have hset : (some (j != k).toNat != some 0) = (j != k) := by cases j != k <;> rfl
      rw [List.all_cons, ih fun i hi => hfound i (List.mem_cons_of_mem _ hi), Function.comp,
        hclause, hset, List.contains_cons, Bool.not_or]
      rfl
  · intro t ht
    rcases List.mem_append.1 ht with ht | ht
    · exact h.evaluable t ht j
    · obtain ⟨k, hk, rfl⟩ := List.mem_map.1 ht
      exact ⟨blockingClause_fits h.constant (assigns_numbered h.nodup h.pos k).word, _,
        h.clause_evaluate hj (hfound k hk)⟩

/-- The least number that is not blocked is the first of the rest. -/
theorem find?_rest {found rest : List Nat} (hsplit : solutions ds ts = found ++ rest) :
    (List.range (2 ^ bits (constants ds))).find?
      (fun j => satisfies ds ts j && !found.contains j) = rest.head? := by
  have hfilter : (solutions ds ts).filter (fun j => !found.contains j) = rest := by
    have hpair : (found ++ rest).Pairwise (· < ·) := hsplit ▸ pairwise_solutions
    have hlt := (List.pairwise_append.1 hpair).2.2
    rw [hsplit, List.filter_append, List.filter_eq_nil_iff.2, List.nil_append,
      List.filter_eq_self.2]
    · intro j hj
      have hnot : j ∉ found := fun hf => Nat.lt_irrefl j (hlt j hf j hj)
      simpa using hnot
    · intro j hj
      simpa using hj
  rw [← List.head?_filter, ← hfilter, solutions, List.filter_filter]
  congr 1
  exact List.filter_congr fun j _ => Bool.and_comm _ _

theorem check_blocked (h : Searchable maxBits ds ts) {found rest : List Nat}
    (hsplit : solutions ds ts = found ++ rest) :
    check maxBits ds (blocked ds ts found) = .ok (verdict (constants ds) rest.head?) := by
  have hfound : ∀ k ∈ found, k < 2 ^ bits (constants ds) := by
    intro k hk
    have hmem : k ∈ solutions ds ts := by
      rw [hsplit]
      exact List.mem_append_left _ hk
    exact lt_of_mem_solutions hmem
  rw [check_eq rfl h.nodup h.pos h.fits h.maxBits_lt fun j hj => h.holds_blocked hfound hj,
    find?_rest hsplit]

end Searchable

/-! ## Steps -/

theorem check_run (maxBits : Nat) (ds : List Declaration) (s : List Term) :
    ((backend maxBits).check ds).run s = (check maxBits ds s, s) := by
  have hget : (get : Call (List Term) (List Term)).run s = (.ok s, s) := rfl
  show (get >>= fun s => liftExcept (check maxBits ds s) : Call (List Term) Verdict).run s = _
  rw [Call.run_bind_ok hget]
  cases check maxBits ds s <;> rfl

theorem assert_run (maxBits : Nat) (t : Term) (s : List Term) :
    ((backend maxBits).assert t).run s = (.ok (), s ++ [t.erase]) := rfl

theorem advance_nil (h : Searchable maxBits ds ts) {found : List Nat}
    (hsplit : solutions ds ts = found ++ []) :
    (advance (backend maxBits) ds).run (blocked ds ts found)
      = (.ok none, blocked ds ts found) := by
  have hcheck := check_run maxBits ds (blocked ds ts found)
  rw [h.check_blocked hsplit] at hcheck
  rw [advance, Call.run_bind_ok hcheck]
  rfl

theorem findSome?_refusal? {ds : List Declaration} :
    ds.findSome? refusal? = none ↔ ∀ d ∈ ds, d.isConstant = true := by
  refine List.findSome?_eq_none_iff.trans (forall₂_congr fun d _ => ?_)
  cases d <;> simp [refusal?, Declaration.isConstant]

theorem advance_cons (h : Searchable maxBits ds ts) {found rest : List Nat} {k : Nat}
    (hsplit : solutions ds ts = found ++ k :: rest) :
    (advance (backend maxBits) ds).run (blocked ds ts found)
      = (.ok (some (numbered (constants ds) k)), blocked ds ts (found ++ [k])) := by
  have hmem : k ∈ solutions ds ts := by
    rw [hsplit]
    exact List.mem_append_right _ List.mem_cons_self
  have hk := lt_of_mem_solutions hmem
  have hcheck := check_run maxBits ds (blocked ds ts found)
  rw [h.check_blocked hsplit] at hcheck
  have hassert := assert_run maxBits (blockingClause ds (numbered (constants ds) k))
    (blocked ds ts found)
  rw [Term.erase_of_evaluate (h.clause_evaluate hk hk)] at hassert
  have hstate : blocked ds ts found ++ [blockingClause ds (numbered (constants ds) k)]
      = blocked ds ts (found ++ [k]) := by
    simp [blocked]
  rw [advance, Call.run_bind_ok hcheck]
  simp only [verdict, List.head?_cons, findSome?_refusal?.2 h.constant]
  rw [Call.run_bind_ok hassert, hstate]
  rfl

/-- As many as the enumeration may still give. -/
def upTo {α : Type} : Option Nat → List α → List α
  | none, l => l
  | some n, l => l.take n

theorem upTo_cons {α : Type} {remaining : Option Nat} (h : remaining ≠ some 0) (a : α)
    (l : List α) : upTo remaining (a :: l) = a :: upTo (remaining.map (· - 1)) l := by
  cases remaining with
  | none => rfl
  | some n =>
    cases n with
    | zero => exact absurd rfl h
    | succ n => rfl

section

variable {σ : Type} {B : Backend σ} {e : Enumeration} {s s' : σ}

/-- It has not ended and has not reached its limit. -/
def Live (e : Enumeration) : Prop := e.done = false ∧ e.remaining ≠ some 0

/-- The answer to a request for the next model, and the enumeration after it. -/
def answer (e : Enumeration) :
    Except Error (Option Model) → Option (Except Error Model) × Enumeration
  | .ok (some m) => (some (.ok m), { e with remaining := e.remaining.map (· - 1) })
  | .ok none => (none, { e with done := true })
  | .error err => (some (.error err), { e with done := true })

theorem next_stopped (h : ¬e.Live) : (next B e).run s = ((none, e), s) := by
  have hstop : (e.done || e.remaining == some 0) = true := by
    refine Decidable.by_contra fun hgo => h ?_
    simpa [Live] using hgo
  rw [next, if_pos hstop]
  rfl

theorem next_live (h : e.Live) {r : Except Error (Option Model)}
    (hadvance : (advance B e.declarations).run s = (r, s')) :
    (next B e).run s = (answer e r, s') := by
  have hgo : ¬(e.done || e.remaining == some 0) = true := by simpa [h.1] using h.2
  rw [next, if_neg hgo]
  simp only [bind, StateT.run, StateT.bind, hadvance]
  rcases r with err | m
  · rfl
  · cases m <;> rfl

theorem collect_end {e' : Enumeration} (h : (next B e).run s = ((none, e'), s')) (fuel : Nat) :
    (collect B (fuel + 1) e).run s = (.ok (some []), s') := by
  rw [collect, Call.run_bind_ok (Call.run_lift h)]
  rfl

theorem collect_model {e' : Enumeration} {m : Model} {r : Except Error (Option (List Model))}
    {s'' : σ} {fuel : Nat} (h : (next B e).run s = ((some (.ok m), e'), s'))
    (hrest : (collect B fuel e').run s' = (r, s'')) :
    (collect B (fuel + 1) e).run s = (r.map (Option.map (m :: ·)), s'') := by
  rw [collect, Call.run_bind_ok (Call.run_lift h)]
  show (collect B fuel e' >>= fun r => pure (r.map (m :: ·))).run s' = _
  cases r with
  | error err => rw [Call.run_bind_error hrest, Except.map]
  | ok ms =>
    rw [Call.run_bind_ok hrest]
    rfl

end

/-- The rest of the solutions in order, up to the limit. -/
theorem collect_run (h : Searchable maxBits ds ts) :
    ∀ (rest found : List Nat) (fuel : Nat) (remaining : Option Nat),
      solutions ds ts = found ++ rest → (upTo remaining rest).length < fuel →
        ∃ s, (collect (backend maxBits) fuel ⟨ds, remaining, false⟩).run (blocked ds ts found)
          = (.ok (some ((upTo remaining rest).map (numbered (constants ds)))), s)
  | _, _, 0, _, _, hfuel => absurd hfuel (Nat.not_lt_zero _)
  | rest, found, fuel + 1, remaining, hsplit, hfuel => by
    by_cases hlimit : remaining = some 0
    · subst hlimit
      exact ⟨_, collect_end (next_stopped fun h => h.2 rfl) fuel⟩
    cases rest with
    | nil =>
      have hnext := next_live (e := ⟨ds, remaining, false⟩) ⟨rfl, hlimit⟩ (advance_nil h hsplit)
      have hnone : upTo remaining ([] : List Nat) = [] := by
        cases remaining with
        | none => rfl
        | some n => exact List.take_nil
      rw [hnone]
      exact ⟨_, collect_end hnext fuel⟩
    | cons k rest =>
      rw [upTo_cons hlimit] at hfuel ⊢
      have hnext := next_live (e := ⟨ds, remaining, false⟩) ⟨rfl, hlimit⟩ (advance_cons h hsplit)
      have hsplit' : solutions ds ts = found ++ [k] ++ rest := by
        rw [hsplit, List.append_assoc, List.singleton_append]
      obtain ⟨s, hs⟩ := collect_run h rest (found ++ [k]) fuel (remaining.map (· - 1)) hsplit'
        (Nat.lt_of_succ_lt_succ hfuel)
      exact ⟨s, collect_model hnext hs⟩

/-! ## Predicates -/

/-- What the predicates mention, each name where it first occurs. -/
def declared (ps : List Value) : List Declaration :=
  (Term.listMentions (ps.map Value.term)).eraseDups

/-- The bitvectors that the predicates mention. -/
def symbols (ps : List Value) : List (String × Nat) := constants (declared ps)

/-- What is asserted for the predicates. -/
def assertions (ps : List Value) : List Term :=
  (ps.filter fun p => p.toNat? ≠ some 1).map Value.term

/-- Predicates over bitvectors alone, each name at one width, with few enough bits to search. -/
structure Enumerable (maxBits : Nat) (ps : List Value) : Prop where
  wellFormed : ∀ p ∈ ps, p.term.WellFormed
  oneBit : ∀ p ∈ ps, p.width = 1
  constant : ∀ p ∈ ps, ∀ d ∈ p.term.mentions, d.isConstant = true
  oneWidth : ∀ p ∈ ps, ∀ q ∈ ps, ∀ d ∈ p.term.mentions, ∀ d' ∈ q.term.mentions,
    d.name = d'.name → d.width = d'.width
  fits : bits (symbols ps) ≤ maxBits
  -- the bound is itself a 32-bit count, so the sum of the widths is one too
  maxBits_lt : maxBits < Width.limit

theorem forM_assert_run : ∀ (ts s : List Term),
    (ts.forM (backend maxBits).assert).run s = (.ok (), s ++ ts.map Term.erase)
  | [], s => by
    rw [List.map_nil, List.append_nil]
    rfl
  | t :: ts, s => by
    show ((backend maxBits).assert t >>= fun _ => ts.forM (backend maxBits).assert).run s = _
    rw [Call.run_bind_ok (assert_run maxBits t s), forM_assert_run ts, List.map_cons,
      List.append_assoc, List.singleton_append]

theorem mem_listMentions {ps : List Value} {d : Declaration} :
    d ∈ Term.listMentions (ps.map Value.term) ↔ ∃ p ∈ ps, d ∈ p.term.mentions := by
  induction ps with
  | nil => simp [Term.listMentions]
  | cons p ps ih => simp [Term.listMentions, ih]

theorem mem_symbols {ps : List Value} {c : String × Nat} :
    c ∈ symbols ps ↔ ∃ p ∈ ps, .constant c.1 c.2 ∈ p.term.mentions := by
  rw [← mem_listMentions, symbols, mem_constants, declared, List.mem_eraseDups]

/-- Functions and arrays are passed over. -/
theorem sublist_map_fst_constants : ∀ (ds : List Declaration),
    ((constants ds).map Prod.fst).Sublist (ds.map Declaration.name)
  | [] => .slnil
  | .constant n _ :: ds => (sublist_map_fst_constants ds).cons_cons n
  | .function n _ _ :: ds | .array n _ _ :: ds => (sublist_map_fst_constants ds).cons n

section

variable {ps : List Value}

theorem consistent_of_symbols (hps : ∀ p ∈ ps, ∀ d ∈ p.term.mentions, d.isConstant = true)
    (h : ∀ n w w', (n, w) ∈ symbols ps → (n, w') ∈ symbols ps → w = w') :
    Query.Consistent (Term.listMentions (ps.map Value.term)) := by
  intro d hd d' hd' hname
  obtain ⟨p, hp, hdp⟩ := mem_listMentions.1 hd
  obtain ⟨q, hq, hdq⟩ := mem_listMentions.1 hd'
  obtain ⟨n, w, rfl⟩ := Declaration.eq_constant (hps p hp d hdp)
  obtain ⟨n', w', rfl⟩ := Declaration.eq_constant (hps q hq d' hdq)
  obtain rfl : n = n' := hname
  rw [h n w w' (mem_symbols.2 ⟨p, hp, hdp⟩) (mem_symbols.2 ⟨q, hq, hdq⟩)]

theorem nodup_symbols (h : Query.Consistent (Term.listMentions (ps.map Value.term))) :
    ((symbols ps).map Prod.fst).Nodup :=
  h.nodup_names.sublist (sublist_map_fst_constants (declared ps))

theorem valid_of_mem_symbols (h : ∀ p ∈ ps, p.term.WellFormed) :
    ∀ c ∈ symbols ps, Width.Valid c.2 := by
  intro c hc
  obtain ⟨p, hp, hmem⟩ := mem_symbols.1 hc
  exact Term.valid_of_mem_mentions p.term (h p hp) hmem

theorem forall_assertions {b : Bindings} :
    (∀ t ∈ assertions ps, t.evaluate b = some 1) ↔ ∀ p ∈ ps, p.term.evaluate b = some 1 := by
  constructor
  · intro h p hp
    by_cases hone : p.toNat? = some 1
    · rw [Value.term_of_toNat? hone, Term.evaluate]
    · exact h _ (List.mem_map_of_mem (List.mem_filter.2 ⟨hp, by simpa using hone⟩))
  · intro h t ht
    obtain ⟨p, hp, rfl⟩ := List.mem_map.1 ht
    exact h p (List.mem_filter.1 hp).1

theorem evaluate_eq_ofBool {p : Value} (h : p.term.WellFormed) (hp : p.width = 1) (m : Model)
    (x : Bool) :
    m.evaluate p = .ok (some (.ofBool x)) ↔ p.term.evaluate m.bindings = some x.toNat := by
  have hw : p.term.width = 1 := hp
  rw [Model.evaluate_eq_some_iff h]
  constructor
  · rintro ⟨-, n, hn, hlit⟩
    have hlit' : Term.lit x.toNat 1 = .lit n p.term.width := hlit
    rw [Term.lit.injEq] at hlit'
    rw [hn, hlit'.1]
  · exact fun hx => ⟨h, x.toNat, hx, by rw [hw]; rfl⟩

theorem evaluate_eq_true {p : Value} (h : p.term.WellFormed) (hp : p.width = 1) (m : Model) :
    m.evaluate p = .ok (some (.ofBool true)) ↔ p.term.evaluate m.bindings = some 1 :=
  evaluate_eq_ofBool h hp m true

/-- Nothing is asked of the backend before the predicates have been checked. -/
theorem prepare_eq {σ : Type} {B : Backend σ} (h : Query.Admissible ps) :
    Query.prepare B ps = (do
      B.openSession
      (assertions ps).forM B.assert
      return declared ps) := by
  have hlist : Term.listMentions (assertions ps) = Term.listMentions (ps.map Value.term) :=
    Query.listMentions_filter ps
  have hds : Query.declarations (assertions ps) = .ok (declared ps) := by
    rw [Query.declarations_eq (hlist ▸ h.consistent), hlist, declared]
  rw [Query.prepare, Query.terms_eq h.oneBit]
  show (liftM (Query.declarations (assertions ps)) >>= fun ds => _ : Call σ _) = _
  rw [hds]
  rfl

theorem prepare_backend (h : Query.Admissible ps) (s : List Term) :
    (Query.prepare (backend maxBits) ps).run s
      = (.ok (declared ps), (assertions ps).map Term.erase) := by
  have hopen : (backend maxBits).openSession.run s = (.ok (), []) := rfl
  rw [prepare_eq h, Call.run_bind_ok hopen, Call.run_bind_ok (forM_assert_run (assertions ps) []),
    List.nil_append]
  rfl

theorem prepare_error {σ : Type} {B : Backend σ} (h : ¬Query.Admissible ps) :
    ∃ err, Query.prepare B ps = throw err := by
  rw [Query.prepare]
  cases hts : Query.terms ps with
  | error err => exact ⟨err, rfl⟩
  | ok ts =>
    have hone := Query.width_of_terms hts
    rw [Query.terms_eq hone] at hts
    cases hts
    cases hds : Query.declarations (assertions ps) with
    | error err =>
      refine ⟨err, ?_⟩
      show (liftM (Query.declarations (assertions ps)) >>= fun ds => _ : Call σ _) = _
      rw [hds]
      rfl
    | ok ds =>
      have hcons := Query.consistent_of_declarations hds
      rw [assertions, Query.listMentions_filter] at hcons
      exact absurd ⟨hone, hcons⟩ h

end

/-- Predicates over bitvectors alone, each name at one width. -/
structure Plain (ps : List Value) : Prop where
  wellFormed : ∀ p ∈ ps, p.term.WellFormed
  oneBit : ∀ p ∈ ps, p.width = 1
  constant : ∀ p ∈ ps, ∀ d ∈ p.term.mentions, d.isConstant = true
  consistent : Query.Consistent (Term.listMentions (ps.map Value.term))

namespace Plain

variable {ps : List Value}

theorem declared_constant (h : Plain ps) : ∀ d ∈ declared ps, d.isConstant = true := by
  intro d hd
  obtain ⟨p, hp, hdp⟩ := mem_listMentions.1 (List.mem_eraseDups.1 hd)
  exact h.constant p hp d hdp

theorem nodup (h : Plain ps) : ((symbols ps).map Prod.fst).Nodup := nodup_symbols h.consistent

theorem pos (h : Plain ps) : ∀ c ∈ symbols ps, 0 < c.2 :=
  fun c hc => (valid_of_mem_symbols h.wellFormed c hc).1

theorem assertions_over (h : Plain ps) : ∀ t ∈ assertions ps, t.Over (declared ps) := by
  intro t ht
  obtain ⟨p, hp, rfl⟩ := List.mem_map.1 ht
  have hps := (List.mem_filter.1 hp).1
  exact ⟨h.wellFormed p hps, h.oneBit p hps, fun d hd =>
    List.mem_eraseDups.2 (mem_listMentions.2 ⟨p, hps, hd⟩)⟩

theorem evaluate_iff (h : Plain ps) (m : Model) :
    (∀ p ∈ ps, m.evaluate p = .ok (some (.ofBool true)))
      ↔ ∀ t ∈ assertions ps, t.evaluate m.bindings = some 1 := by
  rw [forall_assertions]
  exact forall₂_congr fun p hp => evaluate_eq_true (h.wellFormed p hp) (h.oneBit p hp) m

theorem mem_models (h : Plain ps) (m : Model) :
    m ∈ (solutions (declared ps) (assertions ps)).map (numbered (symbols ps))
      ↔ Assigns (symbols ps) m ∧ ∀ p ∈ ps, m.evaluate p = .ok (some (.ofBool true)) := by
  have hsat := satisfies_iff h.declared_constant h.nodup h.assertions_over
  rw [List.mem_map, h.evaluate_iff]
  constructor
  · rintro ⟨k, hk, rfl⟩
    refine ⟨assigns_numbered h.nodup h.pos k, ?_⟩
    rw [bindings_numbered h.nodup h.pos]
    exact (hsat k).1 (List.mem_filter.1 hk).2
  · rintro ⟨hassigns, hall⟩
    have hnum := numbered_counter h.nodup h.pos hassigns
    refine ⟨counter (symbols ps) m.bindings, List.mem_filter.2 ⟨?_, (hsat _).2 ?_⟩, hnum⟩
    · exact List.mem_range.2 (counter_lt hassigns.word)
    · rw [← symbols, ← bindings_numbered h.nodup h.pos, hnum]
      exact hall

theorem pairwise_models (h : Plain ps) :
    ((solutions (declared ps) (assertions ps)).map (numbered (symbols ps))).Pairwise
      fun m m' => counter (symbols ps) m.bindings < counter (symbols ps) m'.bindings := by
  refine List.pairwise_map.2 (pairwise_solutions.imp_of_mem fun hj hk hlt => ?_)
  rw [counter_numbered h.nodup h.pos (lt_of_mem_solutions hj),
    counter_numbered h.nodup h.pos (lt_of_mem_solutions hk)]
  exact hlt

end Plain

namespace Enumerable

variable {ps : List Value}

theorem consistent (h : Enumerable maxBits ps) :
    Query.Consistent (Term.listMentions (ps.map Value.term)) := by
  refine consistent_of_symbols h.constant fun n w w' hw hw' => ?_
  obtain ⟨p, hp, hdp⟩ := mem_symbols.1 hw
  obtain ⟨q, hq, hdq⟩ := mem_symbols.1 hw'
  exact h.oneWidth p hp q hq _ hdp _ hdq rfl

theorem plain (h : Enumerable maxBits ps) : Plain ps :=
  ⟨h.wellFormed, h.oneBit, h.constant, h.consistent⟩

theorem searchable (h : Enumerable maxBits ps) :
    Searchable maxBits (declared ps) (assertions ps) where
  constant := h.plain.declared_constant
  nodup := h.plain.nodup
  pos := h.plain.pos
  fits := h.fits
  maxBits_lt := h.maxBits_lt
  evaluable t ht k := by
    have hbound := bound_of_word h.plain.declared_constant (word_assignment h.plain.nodup k)
    exact (h.plain.assertions_over t ht).evaluable hbound

theorem prepare_run (h : Enumerable maxBits ps) (s : List Term) :
    (Query.prepare (backend maxBits) ps).run s = (.ok (declared ps), assertions ps) := by
  have herase : (assertions ps).map Term.erase = assertions ps := by
    refine (List.map_congr_left fun t ht => ?_).trans (List.map_id _)
    obtain ⟨v, hv⟩ := (h.searchable.evaluable t ht 0).some
    exact Term.erase_of_evaluate hv
  rw [prepare_backend ⟨h.oneBit, h.consistent⟩, herase]

theorem mem_models (h : Enumerable maxBits ps) (m : Model) :
    m ∈ (solutions (declared ps) (assertions ps)).map (numbered (symbols ps))
      ↔ Assigns (symbols ps) m ∧ ∀ p ∈ ps, m.evaluate p = .ok (some (.ofBool true)) :=
  h.plain.mem_models m

theorem pairwise_models (h : Enumerable maxBits ps) :
    ((solutions (declared ps) (assertions ps)).map (numbered (symbols ps))).Pairwise
      fun m m' => counter (symbols ps) m.bindings < counter (symbols ps) m'.bindings :=
  h.plain.pairwise_models

end Enumerable

theorem upTo_limit {α : Type} (limit : Nat) (l : List α) :
    upTo (if limit = 0 then none else some limit) l = if limit = 0 then l else l.take limit := by
  split <;> rfl

/-- The enumeration lists the assignments under which all predicates hold, each once and by
increasing number, and with a limit the first of them. One step more than there are models is
enough. -/
theorem models_exact {maxBits : Nat} {ps : List Value} (h : Enumerable maxBits ps) :
    ∃ ms : List Model,
      (∀ m, m ∈ ms ↔
        Assigns (symbols ps) m ∧ ∀ p ∈ ps, m.evaluate p = .ok (some (.ofBool true)))
      ∧ ms.Pairwise (fun m m' => counter (symbols ps) m.bindings < counter (symbols ps) m'.bindings)
      ∧ ∀ (s : List Term) (limit fuel : Nat),
        (if limit = 0 then ms else ms.take limit).length < fuel →
          ((models (backend maxBits) fuel ps limit).run s).1
            = .ok (some (if limit = 0 then ms else ms.take limit)) := by
  refine ⟨_, h.mem_models, h.pairwise_models, fun s limit fuel hfuel => ?_⟩
  rw [← upTo_limit] at hfuel ⊢
  have hmap : ∀ (r : Option Nat) (l : List Nat) (f : Nat → Model),
      upTo r (l.map f) = (upTo r l).map f := by
    intro r l f
    cases r with
    | none => rfl
    | some n => exact List.map_take.symm
  rw [hmap, List.length_map] at hfuel
  have hstart : (start (backend maxBits) ps limit).run s = (.ok ⟨declared ps,
      if limit = 0 then none else some limit, false⟩, assertions ps) := by
    rw [start, Call.run_bind_ok (h.prepare_run s)]
    rfl
  have hsession : blocked (declared ps) (assertions ps) [] = assertions ps := List.append_nil _
  obtain ⟨s', hrun⟩ := collect_run h.searchable _ [] fuel _ rfl hfuel
  rw [hsession] at hrun
  rw [models, Call.run_bind_ok hstart, hrun, hmap]
  rfl

/-- Two symbols that are compared with each other, and a predicate that is literally true. -/
theorem models_exact_compared :
    let x : Term := .sym "x" 2
    let y : Term := .sym "y" 1
    let ps : List Value :=
      [⟨.compare .ugt x (.zeroExtend 1 y)⟩, .ofBool true, ⟨.compare .ne x (.lit 2 2)⟩]
    Enumerable 3 ps ∧ ∃ ms : List Model,
      (∀ m, m ∈ ms ↔
        Assigns (symbols ps) m ∧ ∀ p ∈ ps, m.evaluate p = .ok (some (.ofBool true)))
      ∧ ((models (backend 3) 3 ps 2).run []).1 = .ok (some (ms.take 2)) := by
  intro x y ps
  have h : Enumerable 3 ps :=
    ⟨by decide, by decide, by decide, by decide, by decide, by decide⟩
  obtain ⟨ms, hmem, -, hrun⟩ := models_exact h
  refine ⟨h, ms, hmem, hrun [] 2 3 ?_⟩
  have hlen : (ms.take 2).length ≤ 2 := List.length_take_le 2 ms
  exact Nat.lt_succ_of_le hlen

end Enumeration

end SymWord
