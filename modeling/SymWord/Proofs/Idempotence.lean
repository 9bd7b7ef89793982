import SymWord.Proofs.RegularTerms

/-!
# Normalization is idempotent

The rules are applied once to each node, from the leaves up, and what they build is not looked at
again. It does not have to be: over regular operands in normal form every rule ends in a term in
normal form. For concatenations this rests on one fact about joining: what two parts are joined to
has the upper end of the upper one, so a part above that could not be joined to it before still
cannot (`join?_apart`).
-/

namespace SymWord

namespace Term

open SymWord.Count

variable {s t u y : Term} {ss ts : List Term} {bits high low : Nat}

/-! ## Extensions -/

theorem mkZeroExtend_normal (hn : t.Normal) : (mkZeroExtend bits t).Normal := by
  fun_cases mkZeroExtend bits t with
  | case1 => exact hn
  | case2 => trivial
  | case3 hbits bits' x =>
    obtain ⟨hx, -, hlit, hext⟩ := hn
    exact ⟨hx, by omega, hlit, hext⟩
  | case4 hbits t hlit hext =>
    refine ⟨hn, hbits, isLit_eq_false hlit, ?_⟩
    fun_cases isZeroExtend t with
    | case1 bits' x => exact absurd rfl (hext bits' x)
    | case2 => rfl

theorem mkSignExtend_normal (hn : t.Normal) : (mkSignExtend bits t).Normal := by
  by_cases hplain : mkSignExtend bits t = signExtend bits t
  · rw [hplain]
    exact ⟨hn, hplain⟩
  revert hplain
  unfold mkSignExtend
  split
  · exact fun _ => hn
  split
  · exact fun _ => trivial
  · exact fun hne => absurd rfl hne

/-! ## Joined parts -/

theorem slice_normal (hn : t.Normal) (hsolid : t.isSolid = true) : (slice high low t).Normal := by
  fun_cases slice high low t with
  | case1 => exact hn
  | case2 hne => exact ⟨hn, hsolid, hne⟩

theorem isConcat_slice (hsolid : t.isSolid = true) : (slice high low t).isConcat = false := by
  fun_cases slice high low t with
  | case1 => cases t <;> first | rfl | cases hsolid
  | case2 => rfl

theorem join?_solid (hsolid : t.isSolid = true) : join? y t = none := by
  unfold join?
  split
  · cases hsolid
  · cases hsolid
  · rfl

theorem join?_normal (hs : join? u t = some s) (hu : u.Normal) :
    s.Normal ∧ s.isConcat = false := by
  revert hs
  fun_cases join? u t with
  | case1 =>
    rintro ⟨⟩
    exact ⟨trivial, rfl⟩
  | case2 =>
    rintro ⟨⟩
    exact ⟨slice_normal hu.1 hu.2.1, isConcat_slice hu.2.1⟩
  | case3 | case4 => rintro ⟨⟩

theorem join?_apart (hs : join? u t = some s) (hu : u.Normal) (hy : join? y u = none) :
    join? y s = none := by
  revert hs
  fun_cases join? u t with
  | case1 =>
    rintro ⟨⟩
    cases y <;> first | rfl | cases hy
  | case2 high low x high' low' x' hmeet =>
    rintro ⟨⟩
    fun_cases slice high low' x with
    | case1 => exact join?_solid hu.2.1
    | case2 =>
      cases y with
      | extract high'' low'' z =>
        simp only [join?] at hy ⊢
        split at hy
        · cases hy
        · rename_i hapart
          rw [if_neg hapart]
      | _ => rfl
  | case3 | case4 => rintro ⟨⟩

theorem apart_snoc (hjoin : join? t u = none) : ∀ (ss : List Term), Apart (ss ++ [t]) →
    Apart (ss ++ [t, u])
  | [], _ => ⟨hjoin, trivial⟩
  | [_], h => ⟨h.1, hjoin, trivial⟩
  | _ :: s :: ss, h => ⟨h.1, apart_snoc hjoin (s :: ss) h.2⟩

theorem apart_replace (hjoin : ∀ y, join? y t = none → join? y u = none) :
    ∀ (ss : List Term), Apart (ss ++ [t]) → Apart (ss ++ [u])
  | [], _ => trivial
  | [s], h => ⟨hjoin s h.1, trivial⟩
  | _ :: s :: ss, h => ⟨h.1, apart_replace hjoin (s :: ss) h.2⟩

/-- Parts in normal form that are no concatenations and cannot be joined. -/
structure Reduced (ts : List Term) : Prop where
  plain : ∀ t ∈ ts, t.Normal ∧ t.isConcat = false
  apart : Apart ts

theorem pushPart_reduced {stack : List Term} (h : Reduced stack.reverse)
    (ht : t.Normal ∧ t.isConcat = false) : Reduced (pushPart stack t).reverse := by
  fun_cases pushPart stack t with
  | case1 => exact ⟨by simpa using ht, trivial⟩
  | case2 last rest u hu =>
    rw [List.reverse_cons] at h ⊢
    obtain ⟨hrest, hlast⟩ := List.forall_mem_append.1 h.plain
    have hnormal := (hlast last List.mem_cons_self).1
    refine ⟨List.forall_mem_append.2 ⟨hrest, ?_⟩, ?_⟩
    · simpa using join?_normal hu hnormal
    · exact apart_replace (fun y => join?_apart hu hnormal) rest.reverse h.apart
  | case3 last rest hnone =>
    refine ⟨?_, ?_⟩
    · rw [List.reverse_cons]
      exact List.forall_mem_append.2 ⟨h.plain, by simpa using ht⟩
    · rw [List.reverse_cons, List.reverse_cons, List.append_assoc]
      rw [List.reverse_cons] at h
      exact apart_snoc hnone rest.reverse h.apart

theorem foldl_pushPart_reduced : ∀ (ts stack : List Term), Reduced stack.reverse →
    (∀ t ∈ ts, t.Normal ∧ t.isConcat = false) → Reduced (ts.foldl pushPart stack).reverse
  | [], _, h, _ => h
  | t :: ts, stack, h, hts => by
    have hpush := pushPart_reduced h (hts t List.mem_cons_self)
    exact foldl_pushPart_reduced ts (pushPart stack t) hpush
      fun u hu => hts u (List.mem_cons_of_mem _ hu)

theorem flatten_normal (h : t.Normal) : ∀ u ∈ flatten t, u.Normal ∧ u.isConcat = false := by
  fun_cases flatten t with
  | case1 ts => exact fun u hu => ⟨allNormal_iff.1 h.1 u hu, h.2.flat u hu⟩
  | case2 t hne =>
    intro u hu
    obtain rfl := List.mem_singleton.1 hu
    refine ⟨h, ?_⟩
    fun_cases isConcat u with
    | case1 ts => exact absurd rfl (hne ts)
    | case2 => rfl

theorem joinParts_reduced (h : AllNormal ts) : Reduced (joinParts ts) := by
  refine foldl_pushPart_reduced _ [] ⟨by simp, trivial⟩ fun u hu => ?_
  obtain ⟨t, ht, hu⟩ := List.mem_flatMap.1 hu
  exact flatten_normal (allNormal_iff.1 h t ht) u hu

theorem foldl_pushPart_ne_nil : ∀ (ts : List Term) {stack : List Term},
    stack ≠ [] ∨ ts ≠ [] → ts.foldl pushPart stack ≠ []
  | [], _, h => h.resolve_right fun hne => hne rfl
  | t :: ts, stack, _ => by
    refine foldl_pushPart_ne_nil ts (.inl ?_)
    fun_cases pushPart stack t <;> exact List.cons_ne_nil _ _

theorem joinParts_ne_nil (hn : AllNormal ts) (hne : ts ≠ []) : joinParts ts ≠ [] := by
  refine fun hnil => foldl_pushPart_ne_nil _ (.inr ?_) (List.reverse_eq_nil_iff.1 hnil)
  cases ts with
  | nil => exact absurd rfl hne
  | cons t ts =>
    rw [List.flatMap_cons]
    refine List.append_ne_nil_of_left_ne_nil ?_ _
    have ht := hn.1
    fun_cases flatten t with
    | case1 us => exact List.ne_nil_of_length_pos (Nat.lt_of_lt_of_le Nat.zero_lt_two ht.2.two_le)
    | case2 => exact List.cons_ne_nil _ _

theorem concat_normal (h : Reduced ts) (hlen : 2 ≤ ts.length)
    (hhead : ∀ t ∈ ts.head?, t.isZero = false) : (concat ts).Normal :=
  ⟨allNormal_iff.2 fun t ht => (h.plain t ht).1, hlen, fun t ht => (h.plain t ht).2, h.apart,
    hhead⟩

/-- What follows a zero does not start with a literal, or the two would be joined. -/
theorem rest_normal (h : Reduced (t :: ts)) (hzero : t.isZero = true) (hlen : 2 ≤ ts.length) :
    (concat ts).Normal := by
  cases ts with
  | nil => cases hlen
  | cons u us =>
    have hjoin := h.apart.1
    have hrest : Reduced (u :: us) :=
      ⟨fun x hx => h.plain x (List.mem_cons_of_mem _ hx), h.apart.2⟩
    refine concat_normal hrest hlen ?_
    rintro _ ⟨⟩
    cases t with
    | lit =>
      cases u with
      | lit => cases hjoin
      | _ => rfl
    | _ => cases hzero

theorem two_le_length (hnil : ts = [] → False) (hone : ∀ t, ts = [t] → False) :
    2 ≤ ts.length := by
  rcases ts with _ | ⟨t, _ | ⟨u, ts⟩⟩
  · exact absurd rfl hnil
  · exact absurd rfl (hone t)
  · simp

theorem mkConcat_normal (hne : ts ≠ []) (hn : AllNormal ts) : (mkConcat ts).Normal := by
  have hred := joinParts_reduced hn
  fun_cases mkConcat ts with
  | case1 t heq => exact (hred.plain t (by simp [heq])).1
  | case2 t u heq hzero =>
    exact mkZeroExtend_normal (hred.plain u (by simp [heq])).1
  | case3 t u heq hzero =>
    rw [heq] at hred
    exact concat_normal hred (by simp) (by simpa using hzero)
  | case4 t us hnil hone heq hzero =>
    rw [heq] at hred
    exact mkZeroExtend_normal (rest_normal hred hzero (two_le_length hnil hone))
  | case5 t us hnil hone heq hzero =>
    rw [heq] at hred
    have hlen := two_le_length hnil hone
    exact concat_normal hred (Nat.le_succ_of_le hlen) (by simpa using hzero)
  | case6 heq => exact absurd heq (joinParts_ne_nil hn hne)

/-! ## Extractions -/

mutual

theorem mkExtract_normal : ∀ (t : Term) {high low : Nat}, (extract high low t).Regular →
    t.Normal → (mkExtract high low t).Normal := by
  intro t high low h hn
  by_cases hwhole : low = 0 ∧ high + 1 = t.width
  · rw [mkExtract.eq_def, if_pos hwhole]
    exact hn
  rw [mkExtract.eq_def, if_neg hwhole]
  match t, h, hn with
  | lit v w, _, _ => trivial
  | extract high' low' x, h, hn =>
    exact mkExtract_normal x (regular_nested h) hn.1
  | concat ts, h, hn =>
    have hpieces := ((pieces_fills ts h.2.1 h.1.2.1).fills h).regular
    exact mkConcat_normal hpieces.1 (pieces_normal ts h.2.1 h.1.2.1 hn.1)
  | zeroExtend bits x, h, hn =>
    simp only
    split
    · rename_i hhigh
      exact mkExtract_normal x ⟨h.1, h.2.1, hhigh⟩ hn.1
    · rename_i hhigh
      split
      · trivial
      · rename_i hlow
        have hin : (extract (x.width - 1) low x).Regular := ⟨h.1, by omega, by omega⟩
        exact mkConcat_normal (List.cons_ne_nil _ _)
          ⟨trivial, mkExtract_normal x hin hn.1, trivial⟩
  | sym _ _, _, hn | unary _ _, _, hn | binary _ _ _, _, hn | compare _ _ _, _, hn
  | signExtend _ _, _, hn | apply _ _ _, _, hn | select _ _ _, _, hn => exact ⟨hn, rfl, hwhole⟩

theorem pieces_normal : ∀ (ts : List Term) {high low : Nat}, low ≤ high → AllRegular ts →
    AllNormal ts → AllNormal (pieces high low ts)
  | [], _, _, _, _, _ => trivial
  | t :: ts, high, low, hle, h, hn => by
    have ih := pieces_normal ts hle h.2 hn.2
    rw [pieces_cons h.1.valid.1]
    split
    · exact ih
    · rename_i hmeet
      exact ⟨mkExtract_normal t (regular_part h.1 hle hmeet) hn.1, ih⟩

end

/-! ## Normalization -/

mutual

theorem Regular.normalize_normal : ∀ {t : Term}, t.Regular → AllFit t.normalCounts →
    t.normalize.Normal
  | lit _ _, _, _ => trivial
  | sym _ _, _, _ => trivial
  | unary op t, h, hfit => by
    rw [normalCounts, allFit_append] at hfit
    exact mkUnary_normal (Regular.normalize_normal (t := t) h hfit.1)
  | binary op l r, h, hfit => by
    simp only [normalCounts, allFit_append] at hfit
    have hl := normalize_fills l h.1 hfit.1.1
    have hr := normalize_fills r h.2.1 hfit.1.2
    have hw : l.normalize.width = r.normalize.width := by rw [hl.width_eq, hr.width_eq, h.2.2]
    exact mkBinary_normal hw (h.1.normalize_normal hfit.1.1) (h.2.1.normalize_normal hfit.1.2)
  | compare op l r, h, hfit => by
    simp only [normalCounts, allFit_append] at hfit
    exact mkCompare_normal (h.1.normalize_normal hfit.1.1) (h.2.1.normalize_normal hfit.1.2)
  | extract high low t, h, hfit => by
    rw [normalCounts, allFit_append] at hfit
    have ht := normalize_fills t h.1 hfit.1
    exact mkExtract_normal _ ⟨ht.regular, h.2.1, ht.width_eq ▸ h.2.2⟩
      (h.1.normalize_normal hfit.1)
  | concat ts, h, hfit => by
    rw [normalCounts, allFit_append] at hfit
    obtain ⟨hts, hw⟩ := normalizeList_fills ts h.2.1 hfit.1
    exact mkConcat_normal (regular_concat_of_widths h hts hw).1 (h.2.1.normalizeList_normal hfit.1)
  | zeroExtend bits t, h, hfit => by
    rw [normalCounts, allFit_append] at hfit
    exact mkZeroExtend_normal (Regular.normalize_normal (t := t) h hfit.1)
  | signExtend bits t, h, hfit => by
    rw [normalCounts, allFit_append] at hfit
    exact mkSignExtend_normal (h.1.normalize_normal hfit.1)
  | apply f ts w, h, hfit => h.1.normalizeList_normal hfit
  | select a t w, h, hfit => h.1.normalize_normal hfit

theorem AllRegular.normalizeList_normal : ∀ {ts : List Term}, AllRegular ts →
    AllFit (normalCountsList ts) → AllNormal (normalizeList ts)
  | [], _, _ => trivial
  | t :: ts, h, hfit => by
    rw [normalCountsList, allFit_append] at hfit
    exact ⟨h.1.normalize_normal hfit.1, h.2.normalizeList_normal hfit.2⟩

end

theorem normalize_normal (t : Term) (h : t.WellFormed) : t.normalize.Normal :=
  h.regular.normalize_normal h.normalCounts_fit

theorem normalize_idempotent {t : Term} (h : t.WellFormed) :
    t.normalize.normalize = t.normalize :=
  normalize_of_normal (normalize_normal t h)

/-- Bits taken from two halves of a symbol with zeros above, which are put together again. -/
theorem normalize_idempotent_joined :
    let t := extract 11 2 (concat [lit 0 8, extract 7 4 (sym "x" 8), extract 3 0 (sym "x" 8)])
    t.WellFormed ∧ t.normalize = zeroExtend 4 (extract 7 2 (sym "x" 8))
      ∧ t.normalize.normalize = t.normalize :=
  ⟨by decide, by rfl, normalize_idempotent (by decide)⟩

end Term

end SymWord
