import SymWord.Proofs.CanonicalValues

/-!
# Widths of concatenations

Opening and joining parts keeps all their bits (`joinParts_sized`), so a concatenation has the sum
of the widths of its parts if that is a width. If it is not, the concatenation fails where the sum
or a part of it is formed: for the width of a concatenation, for two literals that are joined, and
for an extension of an extension. Only a zero in front of other parts can avoid that. It makes them
a zero extension, whose width stops at the greatest one (`mkConcat_fit_iff`).

An extension that does not fit is refused, but a concatenation is not looked at before it is made.
So a concatenation can have a width other than the sum, and it has one exactly if it was stopped
(`concat_width_eq_iff`).
-/

namespace SymWord

namespace Count

variable {cs : List Count}

/-- The count fits or is too great. -/
def Proper (c : Count) : Prop := c.Fits ∨ c.error = .overflow

theorem AllFit.proper (h : AllFit cs) : ∀ c ∈ cs, c.Proper := fun c hc => .inl (h c hc)

theorem form_eq_overflow (h : ∀ c ∈ cs, c.Proper) (hnot : ¬AllFit cs) :
    form cs = .error .overflow := by
  induction cs with
  | nil => exact absurd allFit_nil hnot
  | cons c cs ih =>
    rw [List.forall_mem_cons] at h
    rw [form]
    split
    · rename_i hc
      exact ih h.2 fun hcs => hnot (allFit_cons.2 ⟨hc, hcs⟩)
    · rename_i hc
      rw [h.1.resolve_left hc]

end Count

namespace Term

open SymWord.Count

variable {t u l : Term} {ts parts : List Term} {bits : Nat}

/-! ## Counts that are too great -/

theorem Sized.widthCounts_proper (h : t.Sized) : ∀ c ∈ t.widthCounts, c.Proper := by
  rcases h with h | ⟨h, -⟩
  · exact h.widthCounts_fit.proper
  · cases t with
    | lit => exact allFit_nil.proper
    | _ => cases h

theorem totalCounts_proper : ∀ (ts : List Term) (n : Nat), (∀ t ∈ ts, t.Sized) →
    ∀ c ∈ totalCounts n ts, c.Proper
  | [], _, _ => allFit_nil.proper
  | t :: ts, n, h => by
    rw [List.forall_mem_cons] at h
    rw [totalCounts, List.forall_mem_append, List.forall_mem_cons]
    exact ⟨h.1.widthCounts_proper, .inr rfl, totalCounts_proper ts _ h.2⟩

theorem joinCounts_proper (hu : u.Sized) (hl : l.Regular) : ∀ c ∈ joinCounts u l, c.Proper := by
  fun_cases joinCounts u l with
  | case1 => exact List.forall_mem_cons.2 ⟨.inr rfl, allFit_nil.proper⟩
  | case2 high low t high' low' =>
    refine List.forall_mem_cons.2 ⟨.inr rfl, ?_⟩
    split
    · exact (sliceCounts_fit (regular_meeting (hu.regular rfl) hl ‹_›)).proper
    · exact allFit_nil.proper
  | case3 | case4 => exact allFit_nil.proper

theorem joinPartsCounts_proper : ∀ (ts : List Term) {parts : List Term},
    (∀ s ∈ parts, s.Sized) → AllRegular ts → ∀ c ∈ joinPartsCounts parts ts, c.Proper
  | [], _, _, _ => allFit_nil.proper
  | t :: ts, parts, hp, h => by
    rw [joinPartsCounts, List.forall_mem_append]
    refine ⟨?_, joinPartsCounts_proper ts (pushPart_sized hp (.inl h.1)).1 h.2⟩
    cases parts with
    | nil => exact allFit_nil.proper
    | cons last rest => exact joinCounts_proper (hp last List.mem_cons_self) h.1

theorem mkZeroExtendCounts_proper (bits : Nat) (t : Term) :
    ∀ c ∈ mkZeroExtendCounts bits t, c.Proper := by
  unfold mkZeroExtendCounts
  split
  · exact allFit_nil.proper
  cases t with
  | lit | zeroExtend => exact List.forall_mem_cons.2 ⟨.inr rfl, allFit_nil.proper⟩
  | _ => exact allFit_nil.proper

theorem widthCounts_mkConcat_proper (h : AllRegular ts) :
    ∀ c ∈ (mkConcat ts).widthCounts, c.Proper := by
  have hsized := (joinParts_sized h).1
  fun_cases mkConcat ts with
  | case1 t heq =>
    rw [heq] at hsized
    exact (hsized t List.mem_cons_self).widthCounts_proper
  | case2 t u heq =>
    rw [heq] at hsized
    rw [widthCounts_mkZeroExtend]
    exact (hsized u (by simp)).widthCounts_proper
  | case4 t us _ _ heq =>
    rw [heq] at hsized
    rw [widthCounts_mkZeroExtend]
    exact totalCounts_proper us 0 fun s hs => hsized s (List.mem_cons_of_mem _ hs)
  | case3 _ _ heq | case5 _ _ _ _ heq | case6 heq =>
    rw [heq] at hsized
    exact totalCounts_proper _ 0 hsized

theorem mkConcat_proper (h : AllRegular ts) :
    ∀ c ∈ mkConcatCounts ts ++ (mkConcat ts).widthCounts, c.Proper := by
  rw [mkConcatCounts, List.forall_mem_append, List.forall_mem_append]
  refine ⟨⟨joinPartsCounts_proper _ (by simp) (flatMap_flatten_regular h).1, ?_⟩,
    widthCounts_mkConcat_proper h⟩
  split
  · split
    · exact mkZeroExtendCounts_proper _ _
    · exact allFit_nil.proper
  · exact allFit_nil.proper

/-! ## Leading zeros -/

/-- Parts that are too wide together make a value: a zero in front turns them into an extension, and
the extension is formed without a count that is too great. -/
def stops : List Term → Bool
  | [z, zeroExtend bits _] => z.isZero && decide (z.width + bits < Width.limit)
  | z :: us => z.isZero && decide (z.width < Width.limit) && decide (totalWidth us < Width.limit)
  | [] => false

theorem isZero_eq_false_of_apart (h : join? t u = none) (hu : u.isLit = true) :
    t.isZero = false := by
  cases t with
  | lit =>
    cases u with
    | lit => cases h
    | _ => cases hu
  | _ => rfl

theorem stops_pair (hzero : t.isZero = true) (hpos : 0 < t.width) (hu : u.Regular)
    (hlit : u.isLit = false) : stops [t, u] = true
      ↔ t.width < Width.limit ∧ AllFit (mkZeroExtendCounts t.width u) := by
  have hbits : t.width ≠ 0 := by omega
  have hlt := hu.valid.2
  cases u with
  | lit => cases hlit
  | zeroExtend bits x =>
    simp only [stops, hzero, mkZeroExtendCounts, if_neg hbits, allFit_cons, allFit_nil, Fits,
      Bool.true_and, decide_eq_true_eq, and_true]
    omega
  | _ => simpa [stops, hzero, mkZeroExtendCounts] using fun _ => hlt

theorem concat_fit_iff (h : AllRegular ts) :
    AllFit (concat ts).widthCounts ↔ totalWidth ts < Width.limit := by
  constructor
  · exact fun hfit => by simpa using totalWidth_lt_of_fit (by decide) hfit
  · exact fun hlt => h.totalCounts_fit (by simpa using hlt)

theorem mkConcat_fit_iff (h : AllRegular ts) (hn : AllNormal ts)
    (hge : Width.limit ≤ totalWidth ts) :
    AllFit (mkConcatCounts ts ++ (mkConcat ts).widthCounts) ↔ stops (joinParts ts) = true := by
  have hapart := (joinParts_reduced hn).apart
  obtain ⟨hsized, hcount⟩ := joinParts_sized h
  rw [← hcount] at hge
  rw [allFit_append, mkConcatCounts, allFit_append, joinParts_fit_iff h, mkConcat]
  generalize joinParts ts = parts at *
  rcases parts with _ | ⟨t, _ | ⟨u, _ | ⟨u', us⟩⟩⟩
  · exact absurd hge (by decide)
  · have hge' : ¬t.width < Width.limit := by simpa using hge
    exact ⟨fun hfit => absurd hfit.1.1.1.valid.2 hge', by simp [stops, hge']⟩
  · simp only [List.forall_mem_cons] at hsized
    cases hzero : t.isZero with
    | false =>
      have hstops : stops [t, u] = false := by cases u <;> simp [stops, hzero]
      simp only [hstops, hzero, Bool.false_eq_true, if_false, iff_false]
      exact fun hfit => Nat.not_lt.2 hge ((concat_fit_iff hfit.1.1).1 hfit.2)
    | true =>
      have hlit : u.isLit = false := by
        cases hlit : u.isLit with
        | false => rfl
        | true =>
          rw [isZero_eq_false_of_apart hapart.1 hlit] at hzero
          cases hzero
      have hu := hsized.2.1.regular hlit
      rw [stops_pair hzero hsized.1.width_pos hu hlit]
      simp only [hzero, if_true, widthCounts_mkZeroExtend]
      constructor
      · exact fun hfit => ⟨hfit.1.1.1.valid.2, hfit.1.2⟩
      · rintro ⟨hlt, hfit⟩
        exact ⟨⟨⟨hsized.1.regular_of_lt hlt, hu, trivial⟩, hfit⟩, hu.widthCounts_fit⟩
  · rw [List.forall_mem_cons] at hsized
    cases hzero : t.isZero with
    | false =>
      have hstops : stops (t :: u :: u' :: us) = false := by simp [stops, hzero]
      simp only [hstops, hzero, Bool.false_eq_true, if_false, iff_false]
      exact fun hfit => Nat.not_lt.2 hge ((concat_fit_iff hfit.1.1).1 hfit.2)
    | true =>
      simp only [stops, hzero, if_true, widthCounts_mkZeroExtend, Bool.true_and,
        Bool.and_eq_true, decide_eq_true_eq]
      constructor
      · exact fun hfit => ⟨hfit.1.1.1.valid.2, (concat_fit_iff hfit.1.1.2).1 hfit.2⟩
      · rintro ⟨hlt, hrest⟩
        have hus := allRegular_of_lt hsized.2 hrest
        exact ⟨⟨⟨hsized.1.regular_of_lt hlt, hus⟩, allFit_nil⟩, (concat_fit_iff hus).2 hrest⟩

end Term

namespace Value

open Term

variable {v : Value} {bits : Nat}

/-- What an extension of a value to `bits` more bits should answer for its width. -/
def widthAfter (v : Value) (bits : Nat) : Except Error Nat :=
  if v.width + bits < Width.limit then .ok (v.width + bits)
  else .error (.invalidRange bits 0 v.width)

theorem map_width_checkExtension {t : Term}
    (h : v.width + bits < Width.limit → t.width = v.width + bits) :
    (do v.checkExtension bits; return (⟨t⟩ : Value)).map width = v.widthAfter bits := by
  simp only [checkExtension, widthAfter]
  split
  · rename_i hlt
    exact congrArg Except.ok (h hlt)
  · rfl

theorem map_width_zeroExtend (hv : v.term.WellFormed) :
    (v.zeroExtend bits).map width = v.widthAfter bits := by
  refine map_width_checkExtension fun hlt => ?_
  rw [Nat.add_comm] at hlt ⊢
  rw [(mkZeroExtend_replaces ⟨hv, hlt⟩).width_eq, Term.width_zeroExtend hlt]
  rfl

theorem map_width_signExtend (hv : v.term.WellFormed) :
    (v.signExtend bits).map width = v.widthAfter bits := by
  refine map_width_checkExtension fun hlt => ?_
  rw [Nat.add_comm] at hlt ⊢
  rw [(mkSignExtend_replaces ⟨hv, hlt⟩).width_eq, Term.width_signExtend hlt]
  rfl

/-- What a concatenation answers for its width. -/
def widthTogether (vs : List Value) : Except Error Nat :=
  if totalWidth (vs.map term) < Width.limit then .ok (totalWidth (vs.map term))
  else if stops (joinParts (vs.map term)) then .ok (Width.limit - 1)
  else .error .overflow

theorem map_width_concat {vs : List Value} (hne : vs ≠ []) (h : ∀ v ∈ vs, v.Canonical) :
    (concat vs).map width = widthTogether vs := by
  have hregular := (allWellFormed_terms h).regular
  have hnormal := allNormal_terms h
  have hne' : vs.map term ≠ [] := by simpa using hne
  rw [widthTogether]
  split
  · rename_i hlt
    rw [concat_eq ⟨hne', hregular, hlt⟩]
    exact congrArg Except.ok (mkConcat_fills ⟨hne', hregular, hlt⟩).width_eq
  · rename_i hge
    have hiff := mkConcat_fit_iff hregular hnormal (Nat.not_lt.1 hge)
    have hconcat : concat vs = (do
        Count.form (mkConcatCounts (vs.map term) ++ (mkConcat (vs.map term)).widthCounts)
        return ⟨mkConcat (vs.map term)⟩) := by
      cases vs with
      | nil => exact absurd rfl hne
      | cons v vs => rfl
    rw [hconcat]
    split
    · rename_i hstops
      have hfit := hiff.2 hstops
      rw [Count.form_eq_ok_iff.2 hfit]
      refine congrArg Except.ok ((mkConcat_regular hregular hne' hfit).2.trans ?_)
      omega
    · rename_i hstops
      rw [Count.form_eq_overflow (mkConcat_proper hregular) fun hfit => hstops (hiff.1 hfit)]
      rfl

/-- The concatenation of values has the sum of their widths, is stopped at the greatest width or
fails. So it never has a width other than the sum exactly if the sum is in range or the parts are
not stopped. The two extensions are refused when their sum is not in range. -/
theorem concat_width_eq_iff {vs : List Value} (hne : vs ≠ []) (h : ∀ v ∈ vs, v.Canonical) :
    (concat vs).map width = widthTogether vs
    ∧ ((∀ v, concat vs = .ok v → v.width = totalWidth (vs.map term))
      ↔ totalWidth (vs.map term) < Width.limit ∨ stops (joinParts (vs.map term)) = false)
    ∧ ∀ v ∈ vs, ∀ bits, (v.zeroExtend bits).map width = v.widthAfter bits
      ∧ (v.signExtend bits).map width = v.widthAfter bits := by
  have hmap := map_width_concat hne h
  refine ⟨hmap, ?_, fun v hv bits => ⟨map_width_zeroExtend (h v hv).wellFormed,
    map_width_signExtend (h v hv).wellFormed⟩⟩
  rw [widthTogether] at hmap
  by_cases hlt : totalWidth (vs.map term) < Width.limit
  · refine ⟨fun _ => .inl hlt, fun _ v hv => ?_⟩
    rw [if_pos hlt, hv] at hmap
    exact Except.ok.inj hmap
  rw [if_neg hlt] at hmap
  cases hstops : stops (joinParts (vs.map term)) with
  | false =>
    refine ⟨fun _ => .inr rfl, fun _ v hv => ?_⟩
    rw [hstops, hv] at hmap
    cases hmap
  | true =>
    rw [hstops] at hmap
    refine ⟨fun hall => ?_, fun hor => absurd hor (by simp [hlt])⟩
    cases hconcat : concat vs with
    | error e =>
      rw [hconcat] at hmap
      cases hmap
    | ok v =>
      rw [hconcat] at hmap
      have hv : v.width = Width.limit - 1 := Except.ok.inj hmap
      have hpos : 0 < Width.limit := by decide
      have hsum := hall v hconcat
      omega

/-- A sum of widths that is not one: two symbols that are put together fail. -/
theorem concat_width_eq_iff_overflow :
    let vs : List Value := [⟨.sym "a" 2147483648⟩, ⟨.sym "b" 2147483649⟩]
    vs ≠ [] ∧ (∀ v ∈ vs, v.Canonical) ∧ (concat vs).map width = .error .overflow := by
  intro vs
  have hne : vs ≠ [] := by simp [vs]
  have h : ∀ v ∈ vs, v.Canonical := by decide
  exact ⟨hne, h, (concat_width_eq_iff hne h).1.trans rfl⟩

/-- A zero above a symbol, both of half of all the widths, stops at the greatest width. -/
theorem concat_width_ne :
    let vs : List Value := [⟨.zero 2147483648⟩, ⟨.sym "s" 2147483648⟩]
    vs ≠ [] ∧ (∀ v ∈ vs, v.Canonical) ∧ totalWidth (vs.map term) = 4294967296
      ∧ ∃ v, concat vs = .ok v ∧ v.width = 4294967295 := by
  intro vs
  have h : ∀ v ∈ vs, v.Canonical := by
    simp only [vs, List.forall_mem_cons]
    exact ⟨⟨wellFormed_zero (by decide), rfl⟩, by decide, by simp⟩
  exact ⟨by simp [vs], h, rfl, _, rfl, rfl⟩

end Value

end SymWord
