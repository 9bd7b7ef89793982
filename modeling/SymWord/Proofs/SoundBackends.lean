import Mathlib.Data.List.Perm.Subperm
import SymWord.Proofs.CallProtocol

/-!
# Enumeration with a sound backend

Nothing is known of the backend but that its models satisfy what has been asserted in the session.
Each model found is blocked by a clause, so the next one differs from all before it
(`found_step`), and the models found stay pairwise different along a run (`nexts_found`).

The numbers of the models found are then distinct solutions. A backend that refutes only what has
no model gives up no sooner than all solutions have been found, and so the enumeration ends with as
many models as there are solutions (`nexts_complete`).
-/

namespace SymWord

open Exhaustive

namespace Backend

variable {σ : Type}

/-- A session over the declarations in which the terms have been asserted. -/
inductive Session (B : Backend σ) (ds : List Declaration) : List Term → σ → Prop
  | opened {s s' : σ} (hopen : B.openSession.run s = (.ok (), s')) : Session B ds [] s'
  | asserted {ts : List Term} {t : Term} {s s' : σ} (h : Session B ds ts s) (ht : t.Over ds)
      (hassert : (B.assert t).run s = (.ok (), s')) : Session B ds (ts ++ [t]) s'
  | checked {ts : List Term} {v : Verdict} {s s' : σ} (h : Session B ds ts s)
      (hcheck : (B.check ds).run s = (.ok v, s')) : Session B ds ts s'

/-- The models found give each declared bitvector a word of its width, and all assertions of the
session hold under them. -/
structure Sound (B : Backend σ) (ds : List Declaration) : Prop where
  word : ∀ {ts s m s'}, B.Session ds ts s → (B.check ds).run s = (.ok (.satisfiable m), s') →
    ∀ c ∈ constants ds, ∃ v, v < 2 ^ c.2 ∧ m.get? c.1 = some ⟨.lit v c.2⟩
  holds : ∀ {ts s m s'}, B.Session ds ts s → (B.check ds).run s = (.ok (.satisfiable m), s') →
    ∀ t ∈ ts, t.evaluate m.bindings = some 1

/-- The backend does not fail, and what it refutes has no model. -/
structure Complete (B : Backend σ) (ds : List Declaration) : Prop where
  opens : ∀ s, ∃ s', B.openSession.run s = (.ok (), s')
  asserts : ∀ {ts s t}, B.Session ds ts s → t.Over ds → ∃ s', (B.assert t).run s = (.ok (), s')
  checks : ∀ {ts s}, B.Session ds ts s → ∃ v s', (B.check ds).run s = (.ok v, s')
  refutes : ∀ {ts s s'}, B.Session ds ts s → (B.check ds).run s = (.ok .unsatisfiable, s') →
    ∀ m, Assigns (constants ds) m → ∃ t ∈ ts, t.evaluate m.bindings ≠ some 1

theorem Session.all_over {B : Backend σ} {ds : List Declaration} {ts : List Term} {s : σ}
    (h : B.Session ds ts s) : ∀ t ∈ ts, t.Over ds := by
  induction h with
  | opened => exact fun t ht => absurd ht List.not_mem_nil
  | asserted _ ht _ ih => exact List.forall_mem_append.2 ⟨ih, by simpa using ht⟩
  | checked _ _ ih => exact ih

theorem Session.forM {B : Backend σ} {ds : List Declaration} :
    ∀ {us ts : List Term} {s s' : σ}, B.Session ds ts s → (∀ t ∈ us, t.Over ds) →
      (us.forM B.assert).run s = (.ok (), s') → B.Session ds (ts ++ us) s'
  | [], ts, s, s', h, _, hrun => by
    have hs : s = s' := (Prod.mk.inj hrun).2
    rw [List.append_nil, ← hs]
    exact h
  | u :: us, ts, s, s', h, hus, hrun => by
    obtain ⟨_, s₁, hassert, hrest⟩ := Call.run_bind_eq_ok hrun
    have hu := h.asserted (hus u List.mem_cons_self) hassert
    have := hu.forM (fun t ht => hus t (List.mem_cons_of_mem _ ht)) hrest
    rwa [List.append_assoc, List.singleton_append] at this

theorem Complete.forM {B : Backend σ} {ds : List Declaration} (hB : B.Complete ds) :
    ∀ {us ts : List Term} {s : σ}, B.Session ds ts s → (∀ t ∈ us, t.Over ds) →
      ∃ s', (us.forM B.assert).run s = (.ok (), s')
  | [], _, s, _, _ => ⟨s, rfl⟩
  | u :: us, ts, s, h, hus => by
    obtain ⟨s₁, hassert⟩ := hB.asserts h (hus u List.mem_cons_self)
    obtain ⟨s', hrest⟩ := hB.forM (h.asserted (hus u List.mem_cons_self) hassert)
      fun t ht => hus t (List.mem_cons_of_mem _ ht)
    exact ⟨s', (Call.run_bind_ok hassert).trans hrest⟩

end Backend

/-! ## Blocking clauses -/

namespace Term

variable {ds : List Declaration}

theorem Over.foldl_or : ∀ {ts : List Term} {t : Term}, t.Over ds → (∀ u ∈ ts, u.Over ds) →
    (ts.foldl (binary .or) t).Over ds
  | [], _, h, _ => h
  | u :: ts, t, h, hts => by
    have hu := hts u List.mem_cons_self
    have hor : (binary .or t u).Over ds :=
      ⟨⟨h.wellFormed, hu.wellFormed, h.oneBit.trans hu.oneBit.symm⟩, h.oneBit,
        List.append_subset.2 ⟨h.mentions, hu.mentions⟩⟩
    exact hor.foldl_or fun v hv => hts v (List.mem_cons_of_mem _ hv)

/-- What else is bound does not matter. -/
theorem Over.evaluate_eq {t : Term} {b b' : Bindings} (h : t.Over ds) (hb : ∀ d ∈ ds, d.Bound b)
    (hsub : ∀ n v, b n = some v → b' n = some v) : t.evaluate b' = t.evaluate b := by
  have hI : (Interpretation.ofBindings b').Extends b := fun n v hn =>
    Interpretation.ofBindings_extends b' n v (hsub n v hn)
  have hbt := fun d hd => hb d (h.mentions hd)
  rw [evaluate_of_bound hI t hbt]
  refine evaluate_of_bound (Interpretation.ofBindings_extends b') t fun d hd => ?_
  have hd' := hbt d hd
  cases d with
  | constant n w =>
    obtain ⟨v, hv⟩ := Option.isSome_iff_exists.1 hd'
    exact Option.isSome_of_eq_some (hsub n v hv)
  | function => exact hd'
  | array => exact hd'

end Term

namespace Enumeration

variable {σ : Type} {B : Backend σ} {ds : List Declaration} {ts : List Term} {ms : List Model}
  {s s₁ s' : σ}

/-- Declarations of bitvectors, one to a name. -/
structure Bitvectors (ds : List Declaration) : Prop where
  constant : ∀ d ∈ ds, d.isConstant = true
  nodup : ((constants ds).map Prod.fst).Nodup
  valid : ∀ c ∈ constants ds, Width.Valid c.2

theorem Bitvectors.pos (h : Bitvectors ds) : ∀ c ∈ constants ds, 0 < c.2 :=
  fun c hc => (h.valid c hc).1

theorem blockingClause_over (hds : Bitvectors ds) {m : Model}
    (hm : ∀ c ∈ constants ds, ∃ v, v < 2 ^ c.2 ∧ m.get? c.1 = some ⟨.lit v c.2⟩) :
    (blockingClause ds m).Over ds := by
  have hdiffers : ∀ t ∈ ds.filterMap (differs? m), t.Over ds := by
    rw [filterMap_differs? hds.constant hm]
    intro t ht
    obtain ⟨c, hc, rfl⟩ := List.mem_map.1 ht
    obtain ⟨v, hv, hb⟩ := word_bindings hm c hc
    have hmem : Declaration.constant c.1 c.2 ∈ ds := mem_constants.1 hc
    rw [hb]
    exact ⟨⟨hds.valid c hc, ⟨hv, hds.valid c hc⟩, rfl⟩, rfl, by simpa [Term.mentions] using hmem⟩
  rw [blockingClause]
  split
  · exact ⟨Term.wellFormed_ofBool _, rfl, List.nil_subset _⟩
  · rename_i t us heq
    rw [heq] at hdiffers
    exact (hdiffers t List.mem_cons_self).foldl_or fun u hu =>
      hdiffers u (List.mem_cons_of_mem _ hu)

/-! ## Models found -/

/-- The number of a model, of which only the declared bitvectors count. -/
def number (ds : List Declaration) (m : Model) : Nat := counter (constants ds) m.bindings

/-- Distinct models of the terms, each of which is blocked in the session. -/
structure Found (B : Backend σ) (ds : List Declaration) (ts : List Term) (ms : List Model)
    (s : σ) : Prop where
  session : B.Session ds (ts ++ ms.map (blockingClause ds)) s
  word : ∀ m ∈ ms, ∀ c ∈ constants ds, ∃ v, v < 2 ^ c.2 ∧ m.get? c.1 = some ⟨.lit v c.2⟩
  holds : ∀ m ∈ ms, ∀ t ∈ ts, t.evaluate m.bindings = some 1
  nodup : (ms.map (number ds)).Nodup

theorem found_step (hB : B.Sound ds) (hds : Bitvectors ds) {m : Model}
    (h : Found B ds ts ms s) (hcheck : (B.check ds).run s = (.ok (.satisfiable m), s₁))
    (hassert : (B.assert (blockingClause ds m)).run s₁ = (.ok (), s')) :
    Found B ds ts (ms ++ [m]) s' := by
  have hword := hB.word h.session hcheck
  have hholds := hB.holds h.session hcheck
  refine ⟨?_, ?_, ?_, ?_⟩
  · have := (h.session.checked hcheck).asserted (blockingClause_over hds hword) hassert
    rwa [List.append_assoc, ← List.map_singleton, ← List.map_append] at this
  · exact List.forall_mem_append.2 ⟨h.word, by simpa using hword⟩
  · refine List.forall_mem_append.2 ⟨h.holds, fun m' hm' t ht => ?_⟩
    rw [List.mem_singleton.1 hm']
    exact hholds t (List.mem_append_left _ ht)
  · rw [List.map_append, List.map_singleton]
    refine List.nodup_append.2 ⟨h.nodup, List.pairwise_singleton _ _, ?_⟩
    intro k hk k' hk' heq
    obtain ⟨m₀, hm₀, rfl⟩ := List.mem_map.1 hk
    -- the clause for an earlier model holds under this one
    have hclause := hholds _ (List.mem_append_right _ (List.mem_map_of_mem hm₀))
    rw [blockingClause_counter hds.constant (h.word m₀ hm₀) hword] at hclause
    have hne : number ds m ≠ number ds m₀ := by simpa [number] using hclause
    exact hne (heq.trans (List.mem_singleton.1 hk')).symm

/-- The models among the answers. -/
def yielded (answers : List (Option (Except Error Model))) : List Model :=
  answers.filterMap fun a => a.bind Except.toOption

theorem yielded_cons_replicate {a : Option (Except Error Model)}
    (ha : a.bind Except.toOption = none) (n : Nat) :
    yielded (a :: List.replicate n none) = [] := by
  refine List.filterMap_eq_nil_iff.2 fun x hx => ?_
  rcases List.mem_cons.1 hx with rfl | hx
  · exact ha
  · rw [List.eq_of_mem_replicate hx]
    rfl

/-- The enumeration goes on only after a model. -/
theorem Step.not_live {e e' : Enumeration} {calls : List Request}
    {a : Option (Except Error Model)} (h : Step B e s calls a e' s')
    (ha : a.bind Except.toOption = none) : ¬e'.Live := by
  cases h with
  | stopped h => exact h
  | found => cases ha
  | _ => exact fun hlive => by cases hlive.1

/-- A run that ends in failure may leave the session, so the invariant is kept by some state. -/
theorem nexts_found (hB : B.Sound ds) (hds : Bitvectors ds) : ∀ (n : Nat) {e : Enumeration}
    {ms : List Model} {s : σ}, e.declarations = ds → Found B ds ts ms s →
      ∃ s', Found B ds ts (ms ++ yielded ((nexts B n e).run s).1) s'
  | 0, _, ms, s, _, h => ⟨s, (List.append_nil ms).symm ▸ h⟩
  | n + 1, e, ms, s, he, h => by
    obtain ⟨calls, a, e', s', hnext, hstep⟩ := next_step B e s
    rw [nexts_succ hnext]
    cases ha : a.bind Except.toOption with
    | none =>
      rw [nexts_stopped (hstep.not_live ha), yielded_cons_replicate ha, List.append_nil]
      exact ⟨s, h⟩
    | some m =>
      cases hstep with
      | @found _ _ m' _ hcheck _ hassert =>
        rw [he] at hcheck hassert
        obtain ⟨s'', hrest⟩ := nexts_found hB hds n
          (e := { e with remaining := e.remaining.map (· - 1) }) he
          (found_step hB hds h hcheck hassert)
        rw [List.append_assoc] at hrest
        exact ⟨s'', hrest⟩
      | _ => cases ha

/-! ## Counting -/

theorem nodup_solutions : (solutions ds ts).Nodup :=
  pairwise_solutions.imp Nat.ne_of_lt

theorem bindings_of_assignment {cs : List (String × Nat)} {m : Model} {n : String} {v : Nat}
    (hm : ∀ c ∈ cs, ∃ v, v < 2 ^ c.2 ∧ m.get? c.1 = some ⟨.lit v c.2⟩)
    (h : bindings (assignment cs (counter cs m.bindings)) n = some v) :
    m.bindings n = some v := by
  rw [bindings, lookup_assignment] at h
  by_cases hn : n ∈ cs.map Prod.fst
  · rwa [word?_counter hm hn] at h
  · rw [word?_eq_none hn] at h
    cases h

namespace Found

theorem number_mem (hds : Bitvectors ds) (hts : ∀ t ∈ ts, t.Over ds) (h : Found B ds ts ms s)
    {m : Model} (hm : m ∈ ms) : number ds m ∈ solutions ds ts := by
  have hword := h.word m hm
  refine List.mem_filter.2 ⟨List.mem_range.2 (counter_lt hword), ?_⟩
  refine (satisfies_iff hds.constant hds.nodup hts _).2 fun t ht => ?_
  have hbound := bound_of_word hds.constant (word_assignment hds.nodup (number ds m))
  rw [← (hts t ht).evaluate_eq hbound fun n v hn => bindings_of_assignment hword hn]
  exact h.holds m hm t ht

theorem length_le (hds : Bitvectors ds) (hts : ∀ t ∈ ts, t.Over ds) (h : Found B ds ts ms s) :
    ms.length ≤ (solutions ds ts).length := by
  have hsub : ms.map (number ds) ⊆ solutions ds ts := by
    intro k hk
    obtain ⟨m, hm, rfl⟩ := List.mem_map.1 hk
    exact h.number_mem hds hts hm
  simpa using (h.nodup.subperm hsub).length_le

/-- Nothing is left once the rest has been refuted. -/
theorem le_length (hC : B.Complete ds) (hds : Bitvectors ds) (hts : ∀ t ∈ ts, t.Over ds)
    (h : Found B ds ts ms s) (hcheck : (B.check ds).run s = (.ok .unsatisfiable, s')) :
    (solutions ds ts).length ≤ ms.length := by
  have hsub : solutions ds ts ⊆ ms.map (number ds) := by
    intro k hk
    have hassigns := assigns_numbered hds.nodup hds.pos k
    obtain ⟨t, ht, hne⟩ := hC.refutes h.session hcheck _ hassigns
    rcases List.mem_append.1 ht with ht | ht
    · rw [bindings_numbered hds.nodup hds.pos] at hne
      have hsat := (satisfies_iff hds.constant hds.nodup hts k).1 (List.mem_filter.1 hk).2
      exact absurd (hsat t ht) hne
    · obtain ⟨m, hm, rfl⟩ := List.mem_map.1 ht
      rw [blockingClause_counter hds.constant (h.word m hm) hassigns.word,
        counter_numbered hds.nodup hds.pos (lt_of_mem_solutions hk)] at hne
      have heq : k = counter (constants ds) m.bindings := by
        refine Decidable.by_contra fun hne' => hne ?_
        rw [bne_iff_ne.2 hne']
        rfl
      exact List.mem_map.2 ⟨m, hm, heq.symm⟩
  simpa using (nodup_solutions.subperm hsub).length_le

end Found

/-- Without a limit all solutions are found, and no more. -/
theorem nexts_complete (hB : B.Sound ds) (hC : B.Complete ds) (hds : Bitvectors ds)
    (hts : ∀ t ∈ ts, t.Over ds) : ∀ (n : Nat) {ms : List Model} {s : σ}, Found B ds ts ms s →
      ∃ ms' : List Model, ((nexts B n ⟨ds, none, false⟩).run s).1
          = ms'.map (fun m => some (.ok m))
            ++ List.replicate (n - ((solutions ds ts).length - ms.length)) none
        ∧ ms'.length = min n ((solutions ds ts).length - ms.length)
  | 0, _, _, _ => ⟨[], by rw [Nat.zero_sub]; rfl, (Nat.zero_min _).symm⟩
  | n + 1, ms, s, h => by
    obtain ⟨calls, a, e', s', hnext, hstep⟩ := next_step B ⟨ds, none, false⟩ s
    rw [nexts_succ hnext]
    cases hstep with
    | stopped hstop => exact absurd ⟨rfl, fun hlimit => by cases hlimit⟩ hstop
    | exhausted _ hcheck =>
      have hle := h.le_length hC hds hts hcheck
      have hdone : ¬(⟨ds, none, true⟩ : Enumeration).Live := fun hlive => by cases hlive.1
      rw [nexts_stopped hdone, Nat.sub_eq_zero_of_le hle]
      exact ⟨[], rfl, rfl⟩
    | failed _ hcheck =>
      obtain ⟨v, s₁, hok⟩ := hC.checks h.session
      rw [hcheck] at hok
      cases hok
    | refused _ _ hrefusal =>
      rw [findSome?_refusal?.2 hds.constant] at hrefusal
      cases hrefusal
    | rejected _ hcheck _ hassert =>
      have hover := blockingClause_over hds (hB.word h.session hcheck)
      obtain ⟨s₂, hok⟩ := hC.asserts (h.session.checked hcheck) hover
      rw [hassert] at hok
      cases hok
    | @found _ _ m _ hcheck _ hassert =>
      have h' := found_step hB hds h hcheck hassert
      have hle := h'.length_le hds hts
      obtain ⟨ms', hrun, hlen⟩ := nexts_complete hB hC hds hts n h'
      rw [List.length_append, List.length_singleton] at hle hrun hlen
      have hsub : n + 1 - ((solutions ds ts).length - ms.length)
          = n - ((solutions ds ts).length - (ms.length + 1)) := by omega
      refine ⟨m :: ms', ?_, ?_⟩
      · show some (.ok m) :: ((nexts B n ⟨ds, none, false⟩).run s').1 = _
        rw [hrun, hsub, List.map_cons, List.cons_append]
      · rw [List.length_cons, hlen]
        omega

/-! ## Predicates -/

theorem Plain.bitvectors {ps : List Value} (h : Plain ps) : Bitvectors (declared ps) :=
  ⟨h.declared_constant, h.nodup, valid_of_mem_symbols h.wellFormed⟩

theorem start_ok {ps : List Value} {limit : Nat} {e : Enumeration}
    (h : (start B ps limit).run s = (.ok e, s')) :
    Query.Admissible ps ∧ e = opened ps limit ∧ ∃ s₁, B.openSession.run s = (.ok (), s₁)
      ∧ ((assertions ps).forM B.assert).run s₁ = (.ok (), s') := by
  obtain ⟨ds, s₂, hprepare, hds⟩ := Call.run_bind_eq_ok h
  by_cases hps : Query.Admissible ps
  · rw [prepare_eq hps] at hprepare
    obtain ⟨_, s₁, hopen, hrest⟩ := Call.run_bind_eq_ok hprepare
    obtain ⟨_, s₃, hassert, hdeclared⟩ := Call.run_bind_eq_ok hrest
    cases hdeclared
    cases hds
    exact ⟨hps, rfl, s₁, hopen, hassert⟩
  · obtain ⟨err, herr⟩ := prepare_error (B := B) hps
    rw [herr] at hprepare
    cases hprepare

theorem Plain.found {ps : List Value} (h : Plain ps)
    (hopen : B.openSession.run s = (.ok (), s₁))
    (hassert : ((assertions ps).forM B.assert).run s₁ = (.ok (), s')) :
    Found B (declared ps) (assertions ps) [] s' where
  session := by
    have := (Backend.Session.opened hopen).forM h.assertions_over hassert
    rwa [List.nil_append, ← List.append_nil (assertions ps)] at this
  word m hm := absurd hm List.not_mem_nil
  holds m hm := absurd hm List.not_mem_nil
  nodup := List.Pairwise.nil

theorem Plain.start_run {ps : List Value} (h : Plain ps) (hC : B.Complete (declared ps))
    (limit : Nat) (s : σ) : ∃ s', (start B ps limit).run s = (.ok (opened ps limit), s') := by
  obtain ⟨s₁, hopen⟩ := hC.opens s
  obtain ⟨s', hassert⟩ := hC.forM (.opened hopen) h.assertions_over
  have hprepare : (Query.prepare B ps).run s = (.ok (declared ps), s') := by
    rw [prepare_eq ⟨h.oneBit, h.consistent⟩, Call.run_bind_ok hopen, Call.run_bind_ok hassert]
    rfl
  exact ⟨s', Call.run_bind_ok hprepare⟩

/-! ## The exhaustive backend -/

section

variable {maxBits : Nat}

theorem session_eq (hds : Bitvectors ds) {s : List Term}
    (h : (backend maxBits).Session ds ts s) : s = ts := by
  induction h with
  | opened hopen =>
    cases hopen
    rfl
  | @asserted _ t _ _ _ ht hassert ih =>
    have herase : t.erase = t := Term.erase_eq t fun d hd => hds.constant d (ht.mentions hd)
    rw [assert_run, herase, ih] at hassert
    exact (Prod.mk.inj hassert).2.symm
  | checked _ hcheck ih =>
    rw [check_run] at hcheck
    exact (Prod.mk.inj hcheck).2.symm.trans ih

theorem check_session (hds : Bitvectors ds) (hbits : bits (constants ds) ≤ maxBits)
    (hmax : maxBits < Width.limit) {s : List Term} (h : (backend maxBits).Session ds ts s) :
    ((backend maxBits).check ds).run s
      = (.ok (verdict (constants ds) (solutions ds ts).head?), s) := by
  have hholds : ∀ j, j < 2 ^ bits (constants ds) →
      holds (bindings (assignment (constants ds) j)) ts = .ok (satisfies ds ts j) := by
    intro j _
    refine holds_eq fun t ht => ?_
    have hbound := bound_of_word hds.constant (word_assignment hds.nodup j)
    exact (h.all_over t ht).evaluable hbound
  rw [check_run, session_eq hds h, check_eq rfl hds.nodup hds.pos hbits hmax hholds, solutions,
    List.head?_filter]

theorem exhaustive_sound (hds : Bitvectors ds) (hbits : bits (constants ds) ≤ maxBits)
    (hmax : maxBits < Width.limit) : (backend maxBits).Sound ds := by
  have hmodel : ∀ {ts s m s'}, (backend maxBits).Session ds ts s →
      ((backend maxBits).check ds).run s = (.ok (.satisfiable m), s') →
        ∃ k ∈ solutions ds ts, m = numbered (constants ds) k := by
    intro ts s m s' h hcheck
    rw [check_session hds hbits hmax h] at hcheck
    cases hhead : (solutions ds ts).head? with
    | none =>
      rw [hhead] at hcheck
      cases hcheck
    | some k =>
      rw [hhead] at hcheck
      cases hcheck
      exact ⟨k, List.mem_of_mem_head? hhead, rfl⟩
  constructor
  · intro ts s m s' h hcheck
    obtain ⟨k, -, rfl⟩ := hmodel h hcheck
    exact (assigns_numbered hds.nodup hds.pos k).word
  · intro ts s m s' h hcheck
    obtain ⟨k, hk, rfl⟩ := hmodel h hcheck
    rw [bindings_numbered hds.nodup hds.pos]
    exact (satisfies_iff hds.constant hds.nodup h.all_over k).1 (List.mem_filter.1 hk).2

theorem exhaustive_complete (hds : Bitvectors ds) (hbits : bits (constants ds) ≤ maxBits)
    (hmax : maxBits < Width.limit) : (backend maxBits).Complete ds where
  opens s := ⟨[], rfl⟩
  asserts _ _ := ⟨_, rfl⟩
  checks h := ⟨_, _, check_session hds hbits hmax h⟩
  refutes {ts s s'} h hcheck m hm := by
    refine Decidable.by_contra fun hnone => ?_
    have hall : ∀ t ∈ ts, t.evaluate m.bindings = some 1 := fun t ht =>
      Decidable.by_contra fun hne => hnone ⟨t, ht, hne⟩
    have hmem : counter (constants ds) m.bindings ∈ solutions ds ts := by
      refine List.mem_filter.2 ⟨List.mem_range.2 (counter_lt hm.word), ?_⟩
      refine (satisfies_iff hds.constant hds.nodup h.all_over _).2 ?_
      rw [← bindings_numbered hds.nodup hds.pos, numbered_counter hds.nodup hds.pos hm]
      exact hall
    rw [check_session hds hbits hmax h] at hcheck
    cases hsols : solutions ds ts with
    | nil =>
      rw [hsols] at hmem
      exact List.not_mem_nil hmem
    | cons k rest =>
      rw [hsols] at hcheck
      cases hcheck

end

/-- No model gives one name words of two widths. -/
theorem consistent_of_assigns {ps : List Value}
    (h : ∀ p ∈ ps, ∀ d ∈ p.term.mentions, d.isConstant = true) {m : Model}
    (hm : Assigns (symbols ps) m) : Query.Consistent (Term.listMentions (ps.map Value.term)) := by
  refine consistent_of_symbols h fun n w w' hw hw' => ?_
  obtain ⟨v, -, hv⟩ := hm.word (n, w) hw
  obtain ⟨v', -, hv'⟩ := hm.word (n, w') hw'
  rw [hv] at hv'
  cases hv'
  rfl

/-- All assignments under which the predicates hold. -/
theorem exists_solutions {ps : List Value} (hwf : ∀ p ∈ ps, p.term.WellFormed)
    (hone : ∀ p ∈ ps, p.width = 1)
    (hconstant : ∀ p ∈ ps, ∀ d ∈ p.term.mentions, d.isConstant = true) :
    ∃ sols : List Model, sols.Nodup
      ∧ (∀ m, m ∈ sols ↔
        Assigns (symbols ps) m ∧ ∀ p ∈ ps, m.evaluate p = .ok (some (.ofBool true)))
      ∧ (Query.Consistent (Term.listMentions (ps.map Value.term)) →
        sols.length = (solutions (declared ps) (assertions ps)).length) := by
  by_cases hps : Query.Consistent (Term.listMentions (ps.map Value.term))
  · have hplain : Plain ps := ⟨hwf, hone, hconstant, hps⟩
    refine ⟨_, ?_, hplain.mem_models, fun _ => List.length_map ..⟩
    refine hplain.pairwise_models.imp (S := fun m m' => m ≠ m') fun hlt heq => ?_
    rw [heq] at hlt
    exact Nat.lt_irrefl _ hlt
  · refine ⟨[], List.Pairwise.nil, fun m => ⟨fun hm => absurd hm List.not_mem_nil, ?_⟩,
      fun h => absurd h hps⟩
    exact fun hm => absurd (consistent_of_assigns hconstant hm.1) hps

/-- Models found by a sound backend are pairwise different on the bitvectors of the predicates, and
the predicates hold under each of them. With a backend that is complete too, the enumeration starts
unless a name has two widths, and ends with as many models as there are solutions. -/
theorem models_of_sound {σ : Type} {B : Backend σ} {ps : List Value}
    (hwf : ∀ p ∈ ps, p.term.WellFormed) (hone : ∀ p ∈ ps, p.width = 1)
    (hconstant : ∀ p ∈ ps, ∀ d ∈ p.term.mentions, d.isConstant = true)
    (hB : B.Sound (declared ps)) :
    (∀ limit s e s' n, (start B ps limit).run s = (.ok e, s') →
      (yielded ((nexts B n e).run s').1).Pairwise
        (fun m m' => ∃ c ∈ symbols ps, m.get? c.1 ≠ m'.get? c.1)
      ∧ ∀ m ∈ yielded ((nexts B n e).run s').1, ∀ p ∈ ps,
        m.evaluate p = .ok (some (.ofBool true)))
    ∧ (B.Complete (declared ps) → ∃ sols : List Model, sols.Nodup
      ∧ (∀ m, m ∈ sols ↔
        Assigns (symbols ps) m ∧ ∀ p ∈ ps, m.evaluate p = .ok (some (.ofBool true)))
      ∧ ∀ s, (Query.Consistent (Term.listMentions (ps.map Value.term)) →
          ∃ e s', (start B ps 0).run s = (.ok e, s'))
        ∧ ∀ e s', (start B ps 0).run s = (.ok e, s') → ∀ n, ∃ ms : List Model,
          ((nexts B n e).run s').1
              = ms.map (fun m => some (.ok m)) ++ List.replicate (n - sols.length) none
            ∧ ms.length = min n sols.length) := by
  constructor
  · intro limit s e s' n hstart
    obtain ⟨hps, rfl, s₁, hopen, hassert⟩ := start_ok hstart
    have hplain : Plain ps := ⟨hwf, hone, hconstant, hps.consistent⟩
    obtain ⟨s'', hfound⟩ := nexts_found hB hplain.bitvectors n (e := opened ps limit) rfl
      (hplain.found hopen hassert)
    refine ⟨?_, fun m hm => (hplain.evaluate_iff m).2 (hfound.holds m hm)⟩
    refine (List.pairwise_map.1 hfound.nodup).imp fun {m m'} hne => ?_
    refine Decidable.by_contra fun hsame => hne (counter_congr fun c hc => ?_)
    have hget : m.get? c.1 = m'.get? c.1 := Decidable.by_contra fun hc' => hsame ⟨c, hc, hc'⟩
    rw [Model.bindings, Model.bindings, hget]
  · intro hC
    obtain ⟨sols, hnodup, hmem, hlength⟩ := exists_solutions hwf hone hconstant
    refine ⟨sols, hnodup, hmem, fun s => ⟨fun hps => ?_, fun e s' hstart n => ?_⟩⟩
    · obtain ⟨s', hstart⟩ := Plain.start_run ⟨hwf, hone, hconstant, hps⟩ hC 0 s
      exact ⟨_, s', hstart⟩
    · obtain ⟨hps, rfl, s₁, hopen, hassert⟩ := start_ok hstart
      have hplain : Plain ps := ⟨hwf, hone, hconstant, hps.consistent⟩
      have hopened : opened ps 0 = ⟨declared ps, none, false⟩ := rfl
      have hrun := nexts_complete hB hC hplain.bitvectors hplain.assertions_over n
        (hplain.found hopen hassert)
      rw [List.length_nil, Nat.sub_zero] at hrun
      rw [hlength hps.consistent, hopened]
      exact hrun

/-- Two symbols that are compared with each other, searched by trying all assignments. -/
theorem models_of_sound_compared :
    let x : Term := .sym "x" 2
    let y : Term := .sym "y" 1
    let ps : List Value := [⟨.compare .ugt x (.zeroExtend 1 y)⟩, .ofBool true]
    (backend 3).Sound (declared ps) ∧ (backend 3).Complete (declared ps)
      ∧ ∃ sols : List Model, sols.Nodup
        ∧ (∀ m, m ∈ sols ↔
          Assigns (symbols ps) m ∧ ∀ p ∈ ps, m.evaluate p = .ok (some (.ofBool true)))
        ∧ ∃ e s', (start (backend 3) ps 0).run [] = (.ok e, s')
          ∧ (yielded ((nexts (backend 3) 8 e).run s').1).Pairwise
              (fun m m' => ∃ c ∈ symbols ps, m.get? c.1 ≠ m'.get? c.1)
          ∧ ∃ ms : List Model, ((nexts (backend 3) 8 e).run s').1
              = ms.map (fun m => some (.ok m)) ++ List.replicate (8 - sols.length) none := by
  intro x y ps
  have h : Enumerable 3 ps := ⟨by decide, by decide, by decide, by decide, by decide, by decide⟩
  have hB := exhaustive_sound h.plain.bitvectors h.fits h.maxBits_lt
  have hC := exhaustive_complete h.plain.bitvectors h.fits h.maxBits_lt
  obtain ⟨hdistinct, hcomplete⟩ := models_of_sound h.wellFormed h.oneBit h.constant hB
  obtain ⟨sols, hnodup, hmem, hrun⟩ := hcomplete hC
  obtain ⟨e, s', hstart⟩ := (hrun []).1 h.consistent
  obtain ⟨ms, hms, -⟩ := (hrun []).2 e s' hstart 8
  exact ⟨hB, hC, sols, hnodup, hmem, e, s', hstart, (hdistinct 0 [] e s' 8 hstart).1, ms, hms⟩

end Enumeration

end SymWord
