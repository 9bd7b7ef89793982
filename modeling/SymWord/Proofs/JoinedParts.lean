import SymWord.Proofs.SingleBits

/-!
# Joining as an operation on lists of parts

`joinParts` opens the concatenations among the parts and joins neighbours, from the first part to
the last. Where the joining starts does not matter: a sublist may be joined beforehand
(`joinParts_append`), and the first part may be joined to the others last
(`joinParts_cons_cases`). So two lists with the same joined parts are the same for every
concatenation they stand in.

`mkConcat` reads nothing but the joined parts. A zero above parts is a longer zero extension of what
they make, unless they begin with a literal, to which the zero is joined (`mkConcat_zero_cons`).
-/

namespace SymWord

namespace Term

variable {s t u y : Term} {ps qs ss ts us stack : List Term} {k : Nat}

/-! ## Parts that fit into one term -/

/-- Parts in normal form that make a well-formed concatenation, if there are any. -/
structure Fitting (ts : List Term) : Prop where
  wellFormed : AllWellFormed ts
  normal : AllNormal ts
  totalWidth_lt : totalWidth ts < Width.limit

theorem allNormal_append : AllNormal (ss ++ ts) ↔ AllNormal ss ∧ AllNormal ts := by
  simp only [allNormal_iff, List.forall_mem_append]

namespace Fitting

theorem singleton (h : t.WellFormed) (hn : t.Normal) : Fitting [t] :=
  ⟨⟨h, trivial⟩, ⟨hn, trivial⟩, by simpa using h.width_lt⟩

theorem append_iff :
    Fitting (ss ++ ts) ↔ Fitting ss ∧ Fitting ts ∧ totalWidth ss + totalWidth ts < Width.limit := by
  constructor
  · rintro ⟨hwf, hn, hlt⟩
    rw [allWellFormed_append] at hwf
    rw [allNormal_append] at hn
    rw [totalWidth_append] at hlt
    exact ⟨⟨hwf.1, hn.1, by omega⟩, ⟨hwf.2, hn.2, by omega⟩, hlt⟩
  · rintro ⟨hs, ht, hlt⟩
    exact ⟨allWellFormed_append.2 ⟨hs.wellFormed, ht.wellFormed⟩,
      allNormal_append.2 ⟨hs.normal, ht.normal⟩, by rwa [totalWidth_append]⟩

theorem left (h : Fitting (ss ++ ts)) : Fitting ss := (append_iff.1 h).1

theorem right (h : Fitting (ss ++ ts)) : Fitting ts := (append_iff.1 h).2.1

theorem head (h : Fitting (t :: ts)) : t.WellFormed ∧ t.Normal :=
  ⟨h.wellFormed.1, h.normal.1⟩

theorem tail (h : Fitting (t :: ts)) : Fitting ts := @right [t] ts h

theorem mem (h : Fitting ts) (ht : t ∈ ts) : t.WellFormed ∧ t.Normal :=
  ⟨allWellFormed_iff.1 h.wellFormed t ht, allNormal_iff.1 h.normal t ht⟩

protected theorem cons (h : Fitting ts) (ht : t.WellFormed ∧ t.Normal)
    (hlt : t.width + totalWidth ts < Width.limit) : Fitting (t :: ts) :=
  ⟨⟨ht.1, h.wellFormed⟩, ⟨ht.2, h.normal⟩, hlt⟩

theorem opened_plain (h : Fitting ts) :
    ∀ u ∈ ts.flatMap flatten, u.Normal ∧ u.isConcat = false := by
  intro u hu
  obtain ⟨t, ht, hu⟩ := List.mem_flatMap.1 hu
  exact flatten_normal (h.mem ht).2 u hu

theorem opened (h : Fitting ts) : Fitting (ts.flatMap flatten) := by
  have hflat := flatMap_flatten_replaces h.wellFormed
  exact ⟨hflat.wellFormed, allNormal_iff.2 fun u hu => (h.opened_plain u hu).1,
    hflat.totalWidth_eq ▸ h.totalWidth_lt⟩

theorem joined (h : Fitting ts) : Fitting (joinParts ts) := by
  have hjoin := joinParts_replaces h.wellFormed h.totalWidth_lt
  exact ⟨hjoin.wellFormed,
    allNormal_iff.2 fun t ht => ((joinParts_reduced h.normal).plain t ht).1,
    hjoin.totalWidth_eq ▸ h.totalWidth_lt⟩

theorem concat (h : Fitting ts) (hne : ts ≠ []) : (concat ts).WellFormed :=
  ⟨hne, h.wellFormed, h.totalWidth_lt⟩

theorem of_concat (h : (Term.concat ts).WellFormed) (hn : (Term.concat ts).Normal) : Fitting ts :=
  ⟨h.2.1, hn.1, h.2.2⟩

end Fitting

theorem totalWidth_joinParts (h : Fitting ts) : totalWidth (joinParts ts) = totalWidth ts :=
  (joinParts_replaces h.wellFormed h.totalWidth_lt).totalWidth_eq

theorem Fitting.cons_joined (h : Fitting (t :: ts)) : Fitting (t :: joinParts ts) :=
  h.tail.joined.cons h.head ((totalWidth_joinParts h.tail).symm ▸ h.totalWidth_lt)

theorem mkConcat_fits (h : Fitting ts) (hne : ts ≠ []) :
    (mkConcat ts).WellFormed ∧ (mkConcat ts).Normal ∧ (mkConcat ts).width = totalWidth ts := by
  have hrep := mkConcat_replaces (h.concat hne)
  refine ⟨hrep.wellFormed, mkConcat_normal hne h.normal, ?_⟩
  rw [hrep.width_eq, width_concat]

/-! ## Joining in any order -/

theorem foldl_pushPart_fits (hstack : AllWellFormed stack) (h : AllWellFormed ts)
    (hlt : totalWidth stack + totalWidth ts < Width.limit) :
    AllWellFormed (ts.foldl pushPart stack)
      ∧ totalWidth (ts.foldl pushPart stack) = totalWidth stack + totalWidth ts := by
  have hfold := foldl_pushPart_replaces ts stack h hstack hlt
  have hcount := hfold.totalWidth_eq
  rw [totalWidth_reverse, totalWidth_append, totalWidth_reverse] at hcount
  exact ⟨allWellFormed_reverse.1 hfold.wellFormed, hcount⟩

/-- A part pushed last may be pushed after the others have been moved to another stack. -/
theorem foldl_reverse_pushPart (hstack : AllWellFormed stack) (h : AllWellFormed ts)
    (hn : ∀ u ∈ ts, u.Normal) (ht : t.WellFormed)
    (hlt : totalWidth stack + totalWidth ts + t.width < Width.limit) :
    (pushPart ts t).reverse.foldl pushPart stack
      = pushPart (ts.reverse.foldl pushPart stack) t := by
  fun_cases pushPart ts t with
  | case1 => rfl
  | case2 last rest u hu =>
    rw [totalWidth_cons] at hlt
    have hcount := totalWidth_reverse rest
    obtain ⟨hwf, hfold⟩ := foldl_pushPart_fits hstack (allWellFormed_reverse.2 h.2) (by omega)
    simp only [List.reverse_cons, List.foldl_append, List.foldl_cons, List.foldl_nil]
    exact (pushPart_pushPart hwf h.1 (hn last List.mem_cons_self) ht hu).symm
  | case3 last rest hnone =>
    rw [List.reverse_cons, List.foldl_append]
    rfl

/-- Parts joined on a stack of their own may be moved to another stack. -/
theorem foldl_reverse_foldl (hstack : AllWellFormed stack) : ∀ (ts us : List Term),
    AllWellFormed us → Reduced us.reverse → AllWellFormed ts →
    (∀ t ∈ ts, t.Normal ∧ t.isConcat = false) →
    totalWidth stack + totalWidth us + totalWidth ts < Width.limit →
      (ts.foldl pushPart us).reverse.foldl pushPart stack
        = ts.foldl pushPart (us.reverse.foldl pushPart stack)
  | [], _, _, _, _, _, _ => rfl
  | t :: ts, us, hus, hred, hts, hplain, hlt => by
    rw [totalWidth_cons] at hlt
    have ht := hplain t List.mem_cons_self
    have hone : AllWellFormed [t] := ⟨hts.1, trivial⟩
    obtain ⟨hwf, hcount⟩ := foldl_pushPart_fits hus hone (by simp; omega)
    simp only [List.foldl_cons, List.foldl_nil, totalWidth_cons, totalWidth_nil] at hwf hcount
    have hpush := foldl_reverse_pushPart hstack hus
      (fun u hu => (hred.plain u (List.mem_reverse.2 hu)).1) hts.1 (by omega)
    rw [List.foldl_cons, List.foldl_cons, ← hpush]
    exact foldl_reverse_foldl hstack ts (pushPart us t) hwf (pushPart_reduced hred ht) hts.2
      (fun u hu => hplain u (List.mem_cons_of_mem _ hu)) (by omega)

theorem foldl_joinParts (hstack : AllWellFormed stack) (h : Fitting ts)
    (hlt : totalWidth stack + totalWidth ts < Width.limit) :
    (joinParts ts).foldl pushPart stack = (ts.flatMap flatten).foldl pushPart stack := by
  have hcount := (flatMap_flatten_replaces h.wellFormed).totalWidth_eq
  refine foldl_reverse_foldl hstack _ [] trivial ⟨by simp, trivial⟩ h.opened.wellFormed
    h.opened_plain ?_
  rw [totalWidth_nil]
  omega

theorem joinParts_flat (h : Fitting ts) : (joinParts ts).flatMap flatten = joinParts ts :=
  flatMap_flatten_of_flat fun t ht => ((joinParts_reduced h.normal).plain t ht).2

theorem joinParts_append_joinParts (h : Fitting (ss ++ ts)) :
    joinParts (ss ++ joinParts ts) = joinParts (ss ++ ts) := by
  obtain ⟨hs, ht, hlt⟩ := Fitting.append_iff.1 h
  have hcount := (flatMap_flatten_replaces hs.wellFormed).totalWidth_eq
  have hnil : AllWellFormed [] := trivial
  obtain ⟨hwf, hfold⟩ := foldl_pushPart_fits hnil hs.opened.wellFormed
    (by rw [totalWidth_nil]; omega)
  rw [totalWidth_nil] at hfold
  simp only [joinParts, List.flatMap_append, List.foldl_append]
  have hmove := foldl_joinParts hwf ht (by omega)
  have hflat := joinParts_flat ht
  rw [joinParts] at hmove hflat
  rw [hflat, hmove]

theorem joinParts_joinParts_append (h : Fitting (ss ++ ts)) :
    joinParts (joinParts ss ++ ts) = joinParts (ss ++ ts) := by
  have hs := h.left
  have hlt := hs.totalWidth_lt
  have hnil : AllWellFormed [] := trivial
  have hmove := foldl_joinParts hnil hs (by rw [totalWidth_nil]; omega)
  simp only [joinParts, List.flatMap_append, List.foldl_append]
  have hflat := joinParts_flat hs
  rw [joinParts] at hmove hflat
  rw [hflat, hmove]

theorem joinParts_joinParts (h : Fitting ts) : joinParts (joinParts ts) = joinParts ts :=
  @joinParts_append_joinParts [] ts h

/-- Two sides may be joined beforehand. -/
theorem joinParts_append (h : Fitting (ss ++ ts)) :
    joinParts (ss ++ ts) = joinParts (joinParts ss ++ joinParts ts) := by
  obtain ⟨hs, ht, hlt⟩ := Fitting.append_iff.1 h
  have hcount := totalWidth_joinParts ht
  rw [← joinParts_append_joinParts h]
  exact (joinParts_joinParts_append (Fitting.append_iff.2 ⟨hs, ht.joined, by omega⟩)).symm

theorem joinParts_append_congr (h : Fitting (ps ++ ss)) (h' : Fitting (qs ++ ts))
    (habove : joinParts ps = joinParts qs) (hbelow : joinParts ss = joinParts ts) :
    joinParts (ps ++ ss) = joinParts (qs ++ ts) := by
  rw [joinParts_append h, habove, hbelow, ← joinParts_append h']

theorem joinParts_opened (h : Fitting ts) : joinParts (ts.flatMap flatten) = joinParts ts := by
  rw [joinParts, joinParts, flatMap_flatten_of_flat fun u hu => (h.opened_plain u hu).2]

/-! ## The first part -/

theorem join?_solid_left (hsolid : t.isSolid = true) : join? t y = none := by
  unfold join?
  split
  · cases hsolid
  · cases hsolid
  · rfl

/-- What two parts are joined to has the lower end of the lower one. -/
theorem join?_apart_below (hs : join? u t = some s) (hu : u.Normal) (hy : join? t y = none) :
    join? s y = none := by
  revert hs
  fun_cases join? u t with
  | case1 =>
    rintro ⟨⟩
    cases y <;> first | rfl | cases hy
  | case2 high low x high' low' x' hmeet =>
    rintro ⟨⟩
    obtain ⟨rfl, -⟩ := hmeet
    fun_cases slice high low' x with
    | case1 => exact join?_solid_left hu.2.1
    | case2 =>
      cases y with
      | extract high'' low'' z =>
        simp only [join?] at hy ⊢
        split at hy
        · cases hy
        · rename_i hapart
          rw [if_neg hapart]
      | _ => rfl
  | case3 | case4 => rintro ⟨⟩

theorem joinParts_cons_of_apart (h : Fitting (t :: ts)) (ht : t.isConcat = false)
    (hrest : joinParts ts = u :: us) (hs : join? t u = none) :
    joinParts (t :: ts) = t :: u :: us := by
  have hred := joinParts_reduced h.tail.normal
  have hmove := @joinParts_append_joinParts [t] ts h
  rw [hrest] at hred hmove
  exact hmove.symm.trans (joinParts_of_apart
    (List.forall_mem_cons.2 ⟨ht, fun v hv => (hred.plain v hv).2⟩) ⟨hs, hred.apart⟩)

theorem joinParts_cons_of_join (h : Fitting (t :: ts)) (ht : t.isConcat = false)
    (hrest : joinParts ts = u :: us) (hs : join? t u = some s) :
    joinParts (t :: ts) = s :: us := by
  have hred := joinParts_reduced h.tail.normal
  have hmove := @joinParts_append_joinParts [t] ts h
  rw [hrest] at hred hmove
  have hapart : Apart (s :: us) := by
    rcases us with _ | ⟨v, us⟩
    · trivial
    · exact ⟨join?_apart_below hs h.head.2 hred.apart.1, hred.apart.2⟩
  have hpush : pushPart (pushPart [] t) u = [s] := by simp only [pushPart, hs]
  have hflat : ∀ v ∈ t :: u :: us, v.isConcat = false :=
    List.forall_mem_cons.2 ⟨ht, fun v hv => (hred.plain v hv).2⟩
  refine hmove.symm.trans ?_
  rw [List.singleton_append, joinParts, flatMap_flatten_of_flat hflat, List.foldl_cons,
    List.foldl_cons, hpush, foldl_pushPart_of_apart us [s] hapart]
  simp

/-- The first part is alone, or it stays apart from the others, or it is joined to the first of
them. -/
theorem joinParts_cons_cases (h : Fitting (t :: ts)) (ht : t.isConcat = false) :
    ts = [] ∧ joinParts (t :: ts) = [t] ∨
      ∃ u us, joinParts ts = u :: us ∧ Fitting ([t, u] ++ us) ∧
        (join? t u = none ∧ joinParts (t :: ts) = t :: u :: us ∨
          ∃ s, join? t u = some s ∧ joinParts (t :: ts) = s :: us) := by
  rcases ts with _ | ⟨t', ts⟩
  · exact .inl ⟨rfl, joinParts_of_apart (by simpa using ht) trivial⟩
  rcases hrest : joinParts (t' :: ts) with _ | ⟨u, us⟩
  · exact absurd hrest (joinParts_ne_nil h.tail.normal (by simp))
  have hfits := h.cons_joined
  rw [hrest] at hfits
  refine .inr ⟨u, us, rfl, hfits, ?_⟩
  rcases hs : join? t u with _ | s
  · exact .inl ⟨rfl, joinParts_cons_of_apart h ht hrest hs⟩
  · exact .inr ⟨s, rfl, joinParts_cons_of_join h ht hrest hs⟩

/-! ## What the joined parts make -/

theorem mkConcat_congr (h : joinParts ps = joinParts qs) : mkConcat ps = mkConcat qs := by
  simp only [mkConcat, h]

theorem mkConcat_joinParts (h : Fitting ts) : mkConcat (joinParts ts) = mkConcat ts :=
  mkConcat_congr (joinParts_joinParts h)

theorem joinParts_singleton (hn : t.Normal) : joinParts [t] = flatten t := by
  have hplain := flatten_normal hn
  have hapart : Apart (flatten t) := by
    fun_cases flatten t with
    | case1 => exact hn.2.apart
    | case2 => trivial
  have hopen : [t].flatMap flatten = flatten t := List.flatMap_singleton flatten t
  rw [← joinParts_of_apart (fun u hu => (hplain u hu).2) hapart, joinParts, joinParts, hopen,
    flatMap_flatten_of_flat fun u hu => (hplain u hu).2]

theorem mkConcat_flatten (hn : t.Normal) : mkConcat (flatten t) = t := by
  fun_cases flatten t with
  | case1 ts => exact mkConcat_of_joined hn.2
  | case2 t hne =>
    refine mkConcat_singleton ?_
    fun_cases isConcat t with
    | case1 ts => exact absurd rfl (hne ts)
    | case2 => rfl

theorem mkConcat_self (hn : t.Normal) : mkConcat [t] = t := by
  have hopen : joinParts [t] = joinParts (flatten t) := by
    have hflat : ∀ u ∈ flatten t, u.isConcat = false := fun u hu => (flatten_normal hn u hu).2
    rw [joinParts, joinParts, flatMap_flatten_of_flat hflat, List.flatMap_singleton]
  rw [mkConcat_congr hopen, mkConcat_flatten hn]

/-- The joined parts begin with a zero that is not all there is. -/
def LeadsZero (ts : List Term) : Prop :=
  ∃ t u us, joinParts ts = t :: u :: us ∧ t.isZero = true

theorem leadsZero_congr (h : joinParts ps = joinParts qs) : LeadsZero ps ↔ LeadsZero qs := by
  rw [LeadsZero, LeadsZero, h]

theorem mkConcat_of_zero (h : Fitting ts) (hjoin : joinParts ts = t :: us)
    (hzero : t.isZero = true) (hne : us ≠ []) :
    mkConcat ts = mkZeroExtend t.width (mkConcat us) := by
  have hred := joinParts_reduced h.normal
  rw [hjoin] at hred
  rcases us with _ | ⟨u, _ | ⟨v, us⟩⟩
  · exact absurd rfl hne
  · rw [mkConcat, hjoin, mkConcat_self (hred.plain u (by simp)).1]
    exact if_pos hzero
  · rw [mkConcat, hjoin, mkConcat_of_joined (rest_normal hred hzero (by simp)).2]
    exact if_pos hzero

theorem mkConcat_of_not_zero (hjoin : joinParts ts = t :: u :: us) (hzero : t.isZero = false) :
    mkConcat ts = concat (t :: u :: us) := by
  have hne : ¬ t.isZero = true := by simp [hzero]
  rw [mkConcat, hjoin]
  rcases us with _ | ⟨v, us⟩
  · exact if_neg hne
  · exact if_neg hne

theorem flatten_mkConcat (h : Fitting ts) (hne : ts ≠ []) (hlead : ¬ LeadsZero ts) :
    flatten (mkConcat ts) = joinParts ts := by
  have hred := joinParts_reduced h.normal
  rcases hjoin : joinParts ts with _ | ⟨t, _ | ⟨u, us⟩⟩
  · exact absurd hjoin (joinParts_ne_nil h.normal hne)
  · rw [hjoin] at hred
    have hplain := hred.plain t List.mem_cons_self
    rw [mkConcat, hjoin, ← joinParts_singleton hplain.1]
    exact joinParts_of_apart (by simpa using hplain.2) trivial
  · rcases hzero : t.isZero with _ | _
    · rw [mkConcat_of_not_zero hjoin hzero, flatten]
    · exact absurd ⟨t, u, us, hjoin, hzero⟩ hlead

/-! ## A zero above -/

/-- Whether a term is a concatenation whose first part is a literal. -/
def beginsWithLit : Term → Bool
  | concat (lit _ _ :: _) => true
  | _ => false

theorem isConcat_of_beginsWithLit (h : t.beginsWithLit = true) : t.isConcat = true := by
  cases t with
  | concat => rfl
  | _ => cases h

theorem eq_concat_of_beginsWithLit (hn : t.Normal) (h : t.beginsWithLit = true) :
    ∃ v w u us, t = concat (lit v w :: u :: us) := by
  revert h hn
  fun_cases beginsWithLit t with
  | case1 v w us =>
    rintro hn -
    rcases us with _ | ⟨u, us⟩
    · exact absurd hn.2.two_le (by simp)
    · exact ⟨v, w, u, us, rfl⟩
  | case2 => rintro - ⟨⟩

theorem eq_zero_of_isZero (h : t.isZero = true) : t = zero t.width := by
  cases t with
  | lit v w =>
    have hv : v = 0 := by simpa [isZero] using h
    rw [hv]
    rfl
  | _ => cases h

theorem mkZeroExtend_mkZeroExtend {j : Nat} (h : t.WellFormed) :
    mkZeroExtend j (mkZeroExtend k t) = mkZeroExtend (j + k) t := by
  by_cases hj : j = 0
  · rw [hj, Nat.zero_add, mkZeroExtend.eq_def 0, if_pos rfl]
  by_cases hk : k = 0
  · rw [hk, Nat.add_zero, mkZeroExtend.eq_def 0, if_pos rfl]
  have hjk : ¬ j + k = 0 := by omega
  cases t with
  | lit v w =>
    have hv : v < 2 ^ (w + k) :=
      Nat.lt_of_lt_of_le h.1 (Nat.pow_le_pow_right (by decide) (by omega))
    simp only [mkZeroExtend, hj, hk, hjk, if_false, const, Word.truncate_of_lt hv]
    rw [Nat.add_assoc, Nat.add_comm k j]
  | zeroExtend bits x =>
    simp only [mkZeroExtend, hj, hk, hjk, if_false]
    rw [Nat.add_assoc]
  | _ => simp only [mkZeroExtend, hj, hk, hjk, if_false]

theorem isConcat_mkZeroExtend (hk : k ≠ 0) : (mkZeroExtend k t).isConcat = false := by
  fun_cases mkZeroExtend k t with
  | case1 => exact absurd ‹k = 0› hk
  | case2 | case3 | case4 => rfl

theorem join?_zero_lit {v w : Nat} (h : (lit v w).WellFormed) :
    join? (zero k) (lit v w) = some (lit v (k + w)) := by
  have hv : v < 2 ^ (k + w) :=
    Nat.lt_of_lt_of_le h.1 (Nat.pow_le_pow_right (by decide) (by omega))
  simp only [zero, join?, const, Nat.zero_shiftLeft, Nat.zero_or, Word.truncate_of_lt hv]

theorem join?_zero_of_not_lit (h : t.isLit = false) : join? (zero k) t = none := by
  cases t with
  | lit => cases h
  | _ => rfl

/-- A zero above parts that do not begin with a literal extends what they make. -/
theorem mkConcat_zero_cons (h : Fitting (zero k :: ts)) (hne : ts ≠ [])
    (hlit : (mkConcat ts).beginsWithLit = false) :
    mkConcat (zero k :: ts) = mkZeroExtend k (mkConcat ts) := by
  have hts := h.tail
  have hlt : k + totalWidth ts < Width.limit := h.totalWidth_lt
  have hk : k ≠ 0 := Nat.ne_of_gt h.head.1.width_pos
  have hcount := totalWidth_joinParts hts
  have hwf := hts.joined.wellFormed
  rcases hjoin : joinParts ts with _ | ⟨t, us⟩
  · exact absurd hjoin (joinParts_ne_nil hts.normal hne)
  rw [hjoin] at hcount hwf
  rw [totalWidth_cons] at hcount
  rcases htl : t.isLit with _ | _
  · -- The zero stays the first part.
    have hcons := joinParts_cons_of_apart h rfl hjoin (join?_zero_of_not_lit htl)
    have hsame : mkConcat (t :: us) = mkConcat ts := by
      rw [← hjoin, mkConcat_joinParts hts]
    rw [mkConcat_of_zero h hcons rfl (by simp), hsame]
    rfl
  · rcases t with ⟨v, w⟩ | _
    · have hcons := joinParts_cons_of_join h rfl hjoin (join?_zero_lit hwf.1)
      rcases us with _ | ⟨u, us⟩
      · have hv : v < 2 ^ (w + k) :=
          Nat.lt_of_lt_of_le hwf.1.1 (Nat.pow_le_pow_right (by decide) (by omega))
        simp only [mkConcat, hcons, hjoin, mkZeroExtend, hk, if_false, const,
          Word.truncate_of_lt hv, Nat.add_comm k w]
      rcases hv : (lit v w).isZero with _ | _
      · rw [mkConcat_of_not_zero hjoin hv] at hlit
        cases hlit
      · have hzero : (lit v (k + w)).isZero = true := hv
        have hfits : Fitting (lit v w :: u :: us) := hjoin ▸ hts.joined
        obtain ⟨hrest, -, hwidth⟩ := mkConcat_fits hfits.tail (by simp)
        rw [mkConcat_of_zero h hcons hzero (by simp), mkConcat_of_zero hts hjoin hv (by simp)]
        exact (mkZeroExtend_mkZeroExtend hrest).symm
    all_goals cases htl

theorem not_leadsZero_of_isConcat (h : Fitting ts) (hcat : (mkConcat ts).isConcat = true) :
    ¬ LeadsZero ts := by
  rintro ⟨t, u, us, hjoin, hzero⟩
  have hwf := h.joined.wellFormed
  rw [hjoin] at hwf
  rw [mkConcat_of_zero h hjoin hzero (by simp),
    isConcat_mkZeroExtend (Nat.ne_of_gt hwf.1.width_pos)] at hcat
  cases hcat

/-- Parts below a zero may be put together first. -/
theorem mkConcat_zero_mkConcat (h : Fitting (zero k :: ts)) (hne : ts ≠ []) :
    mkConcat [zero k, mkConcat ts] = mkConcat (zero k :: ts) := by
  have hts := h.tail
  obtain ⟨hwf, hn, hwidth⟩ := mkConcat_fits hts hne
  have hself := mkConcat_self hn
  have hpair : Fitting [zero k, mkConcat ts] := by
    have hlt := h.totalWidth_lt
    refine ⟨⟨h.head.1, hwf, trivial⟩, ⟨trivial, hn, trivial⟩, ?_⟩
    rw [totalWidth_cons, totalWidth_cons, totalWidth_nil, hwidth]
    exact hlt
  rcases hlit : (mkConcat ts).beginsWithLit with _ | _
  · rw [mkConcat_zero_cons hpair (by simp) (by rwa [hself]), hself, mkConcat_zero_cons h hne hlit]
  · have hcat := isConcat_of_beginsWithLit hlit
    have hopen : joinParts [mkConcat ts] = joinParts ts := by
      rw [joinParts_singleton hn,
        flatten_mkConcat hts hne (not_leadsZero_of_isConcat hts hcat)]
    exact mkConcat_congr (@joinParts_append_congr [zero k] [zero k] _ _ hpair h rfl hopen)

/-- A zero above a concatenation that begins with a literal is joined to the literal. -/
theorem mkConcat_zero_lit {v w : Nat} (h : Fitting [zero k, concat (lit v w :: u :: us)]) :
    mkConcat [zero k, concat (lit v w :: u :: us)] = concat (lit v (k + w) :: u :: us) := by
  obtain ⟨hwf, hn⟩ := h.tail.head
  have hlt : k + ((concat (lit v w :: u :: us)).width + 0) < Width.limit := h.totalWidth_lt
  rw [width_concat] at hlt
  simp only [totalWidth_cons, width] at hlt
  have hjoin : joinParts [zero k, concat (lit v w :: u :: us)] = lit v (k + w) :: u :: us :=
    joinParts_cons_of_join h rfl (joinParts_singleton hn) (join?_zero_lit hwf.2.1.1)
  exact mkConcat_of_not_zero hjoin (hn.2.head (lit v w) rfl)

end Term

end SymWord
