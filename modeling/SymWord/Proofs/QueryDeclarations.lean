import SymWord.Solver.Query

/-!
# What a query declares

When every name is mentioned at one sort only, the declarations of the predicates can be collected
without a conflict, and they are the names mentioned, each listed where it first occurs. Dropping
literally true predicates does not change them, since a literal mentions no name. When some name is
mentioned at two sorts there is a conflict (`consistent_of_declarations`).
-/

namespace SymWord

namespace Query

/-- One sort to a name. -/
def Consistent (ds : List Declaration) : Prop :=
  ∀ d ∈ ds, ∀ d' ∈ ds, d.name = d'.name → d = d'

theorem consistent_nil : Consistent [] := fun _ hd => absurd hd List.not_mem_nil

theorem Consistent.subset {ds ds' : List Declaration} (h : Consistent ds) (hs : ds' ⊆ ds) :
    Consistent ds' :=
  fun d hd d' hd' hn => h d (hs hd) d' (hs hd') hn

/-- The declarations with one more at the end, unless it is there already. -/
def enter (ds : List Declaration) (d : Declaration) : List Declaration :=
  if d ∈ ds then ds else ds ++ [d]

theorem mem_enter {ds : List Declaration} {d e : Declaration} :
    e ∈ enter ds d ↔ e ∈ ds ∨ e = d := by
  unfold enter
  split
  · rename_i hd
    exact ⟨Or.inl, fun h => h.elim id fun he => he ▸ hd⟩
  · simp

theorem declare_eq {ds : List Declaration} {d : Declaration} (h : Consistent (d :: ds)) :
    declare ds d = .ok (enter ds d) := by
  unfold declare enter
  split
  · rename_i hnone
    have hd : d ∉ ds := fun hd => by
      have := List.find?_eq_none.1 hnone d hd
      simp at this
    rw [if_neg hd]
  · rename_i first hsome
    have hmem := List.mem_of_find?_eq_some hsome
    have hname : first.name = d.name := by simpa using List.find?_some hsome
    have heq := h first (List.mem_cons_of_mem _ hmem) d List.mem_cons_self hname
    rw [if_pos heq, if_pos (heq ▸ hmem)]

theorem foldlM_declare : ∀ (l ds : List Declaration), Consistent (ds ++ l) →
    l.foldlM declare ds = .ok (l.foldl enter ds)
  | [], ds, _ => rfl
  | d :: l, ds, h => by
    have hd : Consistent (d :: ds) := h.subset fun e he => by
      rcases List.mem_cons.1 he with rfl | he
      · simp
      · exact List.mem_append_left _ he
    have hrest : Consistent (enter ds d ++ l) := h.subset fun e he => by
      rcases List.mem_append.1 he with he | he
      · rcases mem_enter.1 he with he | rfl
        · exact List.mem_append_left _ he
        · simp
      · exact List.mem_append_right _ (List.mem_cons_of_mem _ he)
    rw [List.foldlM_cons, declare_eq hd, List.foldl_cons]
    exact foldlM_declare l (enter ds d) hrest

theorem declare_ok {ds ds' : List Declaration} {d : Declaration} (h : Consistent ds)
    (hd : declare ds d = .ok ds') : Consistent ds' ∧ ds ⊆ ds' ∧ d ∈ ds' := by
  unfold declare at hd
  split at hd
  · rename_i hnone
    cases hd
    have hnew : ∀ e ∈ ds, e.name ≠ d.name := fun e he => by
      simpa using List.find?_eq_none.1 hnone e he
    refine ⟨fun e he e' he' hname => ?_, List.subset_append_left _ _, by simp⟩
    simp only [List.mem_append, List.mem_singleton] at he he'
    rcases he with he | rfl
    · rcases he' with he' | rfl
      · exact h e he e' he' hname
      · exact absurd hname (hnew e he)
    · rcases he' with he' | rfl
      · exact absurd hname.symm (hnew e' he')
      · rfl
  · rename_i first hsome
    split at hd
    · rename_i heq
      cases hd
      exact ⟨h, List.Subset.refl _, heq ▸ List.mem_of_find?_eq_some hsome⟩
    · split at hd <;> cases hd

theorem foldlM_declare_ok : ∀ (l : List Declaration) {ds ds' : List Declaration}, Consistent ds →
    l.foldlM declare ds = .ok ds' → Consistent ds' ∧ ds ⊆ ds' ∧ l ⊆ ds'
  | [], ds, ds', h, hok => by
    cases hok
    exact ⟨h, List.Subset.refl _, List.nil_subset _⟩
  | d :: l, ds, ds', h, hok => by
    rw [List.foldlM_cons] at hok
    cases hd : declare ds d with
    | error e =>
      rw [hd] at hok
      cases hok
    | ok ds₁ =>
      rw [hd] at hok
      obtain ⟨h₁, hsub, hmem⟩ := declare_ok h hd
      obtain ⟨h', hsub', hl⟩ := foldlM_declare_ok l h₁ hok
      exact ⟨h', List.Subset.trans hsub hsub', List.cons_subset.2 ⟨hsub' hmem, hl⟩⟩

/-! ## First occurrences -/

theorem foldl_enter : ∀ (l ds : List Declaration),
    l.foldl enter ds = ds ++ (l.filter fun d => !ds.contains d).eraseDups
  | [], ds => by simp
  | d :: l, ds => by
    rw [List.foldl_cons, foldl_enter l, enter]
    by_cases hd : d ∈ ds
    · simp [hd]
    · rw [if_neg hd, List.filter_cons_of_pos (by simpa using hd), List.eraseDups_cons,
        List.filter_filter, List.append_assoc, List.singleton_append]
      congr 3
      apply List.filter_congr
      intro e _
      by_cases he : e = d <;> simp [he]

theorem foldl_enter_nil (l : List Declaration) : l.foldl enter [] = l.eraseDups := by
  have hfilter : l.filter (fun d => !([] : List Declaration).contains d) = l :=
    List.filter_eq_self.2 fun _ _ => rfl
  rw [foldl_enter, List.nil_append, hfilter]

theorem foldl_enter_filter {d : Declaration} : ∀ (l : List Declaration) {ds : List Declaration},
    d ∈ ds → (l.filter fun e => !e == d).foldl enter ds = l.foldl enter ds
  | [], _, _ => rfl
  | e :: l, ds, hd => by
    by_cases he : e = d
    · subst he
      rw [List.filter_cons_of_neg (by simp), List.foldl_cons, foldl_enter_filter l hd]
      rw [enter, if_pos hd]
    · rw [List.filter_cons_of_pos (by simpa using he), List.foldl_cons, List.foldl_cons]
      exact foldl_enter_filter l (mem_enter.2 (.inl hd))

/-- Only first occurrences are entered, so repetitions may be dropped before. -/
theorem foldl_enter_eraseDups : ∀ (l ds : List Declaration),
    l.eraseDups.foldl enter ds = l.foldl enter ds
  | [], ds => by simp
  | d :: l, ds => by
    rw [List.eraseDups_cons, List.foldl_cons, foldl_enter_eraseDups, List.foldl_cons]
    exact foldl_enter_filter l (mem_enter.2 (.inr rfl))
termination_by l => l.length
decreasing_by
  have := List.length_filter_le (fun e => !e == d) l
  simp only [List.length_cons]
  omega

theorem foldl_enter_flatMap : ∀ (ts : List Term) (ds : List Declaration),
    (ts.flatMap Term.declarations).foldl enter ds = (Term.listMentions ts).foldl enter ds
  | [], ds => rfl
  | t :: ts, ds => by
    rw [List.flatMap_cons, List.foldl_append, Term.listMentions, List.foldl_append,
      Term.declarations, foldl_enter_eraseDups]
    exact foldl_enter_flatMap ts _

theorem mem_flatMap_declarations {ts : List Term} {d : Declaration} :
    d ∈ ts.flatMap Term.declarations ↔ d ∈ Term.listMentions ts := by
  induction ts with
  | nil => simp [Term.listMentions]
  | cons t ts ih =>
    rw [List.flatMap_cons, List.mem_append, Term.listMentions, List.mem_append, ih,
      Term.mem_declarations]

theorem declarations_eq {ts : List Term} (h : Consistent (Term.listMentions ts)) :
    declarations ts = .ok (Term.listMentions ts).eraseDups := by
  have hall : Consistent ([] ++ ts.flatMap Term.declarations) :=
    h.subset fun d hd => mem_flatMap_declarations.1 hd
  rw [declarations, foldlM_declare _ _ hall, foldl_enter_flatMap, foldl_enter_nil]

/-- A name at two sorts is found out. -/
theorem consistent_of_declarations {ts : List Term} {ds : List Declaration}
    (h : declarations ts = .ok ds) : Consistent (Term.listMentions ts) := by
  obtain ⟨hds, -, hsub⟩ := foldlM_declare_ok _ consistent_nil h
  exact hds.subset fun d hd => hsub (mem_flatMap_declarations.2 hd)

theorem nodup_eraseDups : ∀ (l : List Declaration), l.eraseDups.Nodup
  | [] => by simp
  | d :: l => by
    rw [List.eraseDups_cons]
    refine List.nodup_cons.2 ⟨?_, nodup_eraseDups _⟩
    simp [List.mem_eraseDups]
termination_by l => l.length
decreasing_by
  have := List.length_filter_le (fun e => !e == d) l
  simp only [List.length_cons]
  omega

theorem Consistent.nodup_names {l : List Declaration} (h : Consistent l) :
    (l.eraseDups.map Declaration.name).Nodup := by
  refine List.pairwise_map.2 ((nodup_eraseDups l).imp_of_mem ?_)
  intro d d' hd hd' hne hname
  exact hne (h d (List.mem_eraseDups.1 hd) d' (List.mem_eraseDups.1 hd') hname)

/-! ## Predicates -/

/-- Predicates of one bit each, with one sort to a name. -/
structure Admissible (ps : List Value) : Prop where
  oneBit : ∀ p ∈ ps, p.width = 1
  consistent : Consistent (Term.listMentions (ps.map Value.term))

theorem terms_eq : ∀ {ps : List Value}, (∀ p ∈ ps, p.width = 1) →
    terms ps = .ok ((ps.filter fun p => p.toNat? ≠ some 1).map Value.term)
  | [], _ => rfl
  | p :: ps, h => by
    have ih := terms_eq fun q hq => h q (List.mem_cons_of_mem _ hq)
    rw [terms, if_pos (h p List.mem_cons_self), ih]
    by_cases hp : p.toNat? = some 1
    · rw [List.filter_cons_of_neg (by simpa using hp)]
      simp [bind, Except.bind, hp, pure, Except.pure]
    · rw [List.filter_cons_of_pos (by simpa using hp)]
      simp [bind, Except.bind, hp, pure, Except.pure]

theorem width_of_terms : ∀ {ps : List Value} {ts : List Term}, terms ps = .ok ts →
    ∀ p ∈ ps, p.width = 1
  | [], _, _ => by simp
  | p :: ps, ts, h => by
    rw [terms] at h
    split at h
    · rename_i hp
      cases hps : terms ps with
      | error e =>
        rw [hps] at h
        cases h
      | ok us => exact List.forall_mem_cons.2 ⟨hp, width_of_terms hps⟩
    · cases h

theorem mentions_of_toNat? {p : Value} {n : Nat} (h : p.toNat? = some n) :
    p.term.mentions = [] := by
  rw [Value.term_of_toNat? h, Term.mentions]

theorem listMentions_filter : ∀ (ps : List Value),
    Term.listMentions ((ps.filter fun p => p.toNat? ≠ some 1).map Value.term)
      = Term.listMentions (ps.map Value.term)
  | [] => rfl
  | p :: ps => by
    have ih := listMentions_filter ps
    by_cases hp : p.toNat? = some 1
    · rw [List.filter_cons_of_neg (by simpa using hp), ih, List.map_cons, Term.listMentions,
        mentions_of_toNat? hp, List.nil_append]
    · rw [List.filter_cons_of_pos (by simpa using hp), List.map_cons, Term.listMentions, ih,
        List.map_cons, Term.listMentions]

end Query

end SymWord
