import SymWord.Proofs.CroppedParts

/-!
# Extractions from what was put together

An extraction from a concatenation that the rules have put together is, for most parts, the
concatenation of the cropped parts (`mkExtract_mkConcat`). There are two exceptions.

* A leading zero is merged with a zero extension below it. If that one covers a concatenation that
  begins with a literal, an extraction of some of the zeros joins them to the literal, where the
  zero extension itself would have stayed.
* A concatenation among the parts is opened. If one of its ranges begins with a zero, that zero
  stays inside a zero extension as long as the concatenation is one part, but not when it is opened.
-/

namespace SymWord

namespace Term

variable {p q s t u x y z : Term} {ps qs ss ts us : List Term} {low top high j k : Nat}

/-! ## Zero extensions -/

theorem crop_zero (hk : k < Width.limit) (h : low < min top k) :
    crop low top (zero k) = [zero (min top k - low)] := by
  have hwf : (extract (min top k - 1) low (lit 0 k)).WellFormed :=
    ⟨wellFormed_zero ⟨by omega, hk⟩, by omega, by simp only [width]; omega⟩
  rw [crop, width_zero, if_pos h, zero, mkExtract_lit hwf, Nat.zero_shiftRight, Nat.zero_mod, zero,
    show min top k - 1 - low + 1 = min top k - low by omega]

theorem flatten_fits (h : t.WellFormed) (hn : t.Normal) : Fitting (flatten t) := by
  have hfit := (Fitting.singleton h hn).opened
  rwa [List.flatMap_singleton] at hfit

theorem flatten_ne_nil (h : t.WellFormed) : flatten t ≠ [] := by
  intro hnil
  have hcount := totalWidth_flatten h
  have hpos := h.width_pos
  rw [hnil, totalWidth_nil] at hcount
  omega

theorem zero_flatten_fits (h : (zeroExtend k x).WellFormed) (hn : (zeroExtend k x).Normal) :
    Fitting (zero k :: flatten x) := by
  have hlt := h.2
  refine (flatten_fits h.1 hn.1).cons ⟨wellFormed_zero ⟨?_, by omega⟩, trivial⟩ ?_
  · exact Nat.pos_of_ne_zero hn.2.1
  · rwa [totalWidth_flatten h.1, width_zero]

/-- An extraction of some bits of a zero extension is one from a zero and the operand. -/
theorem mkExtract_zeroExtend_pair (h : (extract high low (zeroExtend k x)).WellFormed)
    (hn : (zeroExtend k x).Normal) (hsome : ¬ (low = 0 ∧ high + 1 = k + x.width)) :
    mkExtract high low (zeroExtend k x) = mkConcat (cropAll low (high + 1) [zero k, x]) := by
  obtain ⟨⟨hx, hlt⟩, hle, hhigh⟩ := id h
  rw [width_zeroExtend hlt] at hhigh
  rw [mkExtract.eq_def, width_zeroExtend hlt, if_neg hsome, cropAll_pair]
  simp only
  split
  · rename_i hin
    rw [crop_of_le (by omega), crop_of_lt (by omega) (by omega), List.nil_append,
      Nat.add_sub_cancel, mkConcat_self (mkExtract_normal x ⟨hx.regular, hle, hin⟩ hn.1)]
  split
  · rename_i hout habove
    rw [@crop_of_le x low (high + 1) (by omega), crop_zero (by omega) (by omega), List.append_nil,
      mkConcat_singleton rfl]
    congr 1
    omega
  · rename_i hout hacross
    rw [crop_zero (by omega) (by omega), crop_of_width_le (by omega),
      crop_of_lt (by omega) (Nat.le_refl _), List.singleton_append]
    congr 3
    omega

theorem mkExtract_zeroExtend_low (h : (zeroExtend k x).WellFormed) (hn : (zeroExtend k x).Normal)
    (hle : low ≤ high) (hhigh : high < x.width) :
    mkExtract high low (zeroExtend k x) = mkExtract high low x := by
  have hwf : (extract high low x).WellFormed := ⟨h.1, hle, hhigh⟩
  have hk := hn.2.1
  rw [mkExtract_zeroExtend_pair ⟨h, hle, by rw [width_zeroExtend h.2]; omega⟩ hn (by omega),
    cropAll_pair, crop_of_le (by omega), crop_of_lt (by omega) (by omega), List.nil_append,
    Nat.add_sub_cancel, mkConcat_self (mkExtract_normal x hwf.regular hn.1)]

/-- What stands below a zero may be opened. -/
theorem mkConcat_cropAll_zero_cons (h : Fitting [zero k, t]) (hts : Fitting ts)
    (hcount : totalWidth ts = t.width)
    (hcut : ∀ {high low}, low ≤ high → high < t.width →
      mkExtract high low t = mkConcat (cropAll low (high + 1) ts)) (low top : Nat) :
    mkConcat (cropAll low top [zero k, t]) = mkConcat (cropAll low top (zero k :: ts)) := by
  obtain ⟨ht, hn⟩ := h.tail.head
  have hlt : k + (t.width + 0) < Width.limit := h.totalWidth_lt
  rw [cropAll_pair, cropAll, hcount]
  rcases crop_cases ht low top with ⟨hempty, hcrop⟩ | ⟨hlow, hcrop, hwf⟩
  · have hnone : cropAll low top ts = [] := by
      rw [← cropAll_min]
      exact cropAll_of_le (by omega) ts
    rw [hcrop, hnone]
  obtain ⟨hrest, hrestcount⟩ := cropAll_fits ts hts low top
  have hne := cropAll_ne_nil hts (show low < top by omega) (by omega)
  rw [hcrop, hcut (by omega) (by omega), Nat.sub_add_cancel (by omega), ← hcount, cropAll_min]
  rcases crop_cases h.head.1 (low - totalWidth ts) (top - totalWidth ts)
    with ⟨-, hnone⟩ | ⟨hsome, -⟩
  · rw [hnone, List.nil_append, List.nil_append, mkConcat_self (mkConcat_fits hrest hne).2.1]
  · rw [width_zero] at hsome
    rw [crop_zero (by omega) hsome, List.singleton_append, List.singleton_append]
    refine mkConcat_zero_mkConcat
      (hrest.cons ⟨wellFormed_zero ⟨by omega, by omega⟩, trivial⟩ ?_) hne
    rw [hrestcount, width_zero]
    omega

theorem zero_fits (h : (zeroExtend k x).WellFormed) (hn : (zeroExtend k x).Normal) :
    Fitting [zero k, x] := by
  have hlt := h.2
  exact (Fitting.singleton h.1 hn.1).cons
    ⟨wellFormed_zero ⟨Nat.pos_of_ne_zero hn.2.1, by omega⟩, trivial⟩ h.2

/-- An extraction from a zero extension is one from a zero and the parts below, unless it is the
extraction of all bits and the zeros would be joined to a literal. -/
theorem mkExtract_zeroExtend (h : (extract high low (zeroExtend k x)).WellFormed)
    (hn : (zeroExtend k x).Normal)
    (hlit : low = 0 → high + 1 = k + x.width → x.beginsWithLit = false) :
    mkExtract high low (zeroExtend k x)
      = mkConcat (cropAll low (high + 1) (zero k :: flatten x)) := by
  obtain ⟨hext, hle, hhigh⟩ := id h
  obtain ⟨hx, hlt⟩ := id hext
  have hfits := zero_flatten_fits hext hn
  have hcount := totalWidth_flatten hx
  by_cases hwhole : low = 0 ∧ high + 1 = k + x.width
  · obtain ⟨rfl, hwhole⟩ := hwhole
    have hflat := mkConcat_flatten hn.1
    have htop : high = (zeroExtend k x).width - 1 := by
      rw [width_zeroExtend hlt]
      omega
    rw [cropAll_whole _ hfits.wellFormed (by rw [totalWidth_cons, width_zero]; omega),
      mkConcat_zero_cons hfits (flatten_ne_nil hx) (by rw [hflat]; exact hlit rfl hwhole), hflat,
      mkZeroExtend_of_normal hn, htop, mkExtract_whole hext]
  · rw [mkExtract_zeroExtend_pair h hn hwhole]
    exact mkConcat_cropAll_zero_cons (zero_fits hext hn) hfits.tail hcount
      (fun hle' hlt' => mkExtract_flatten ⟨hx, hle', hlt'⟩ hn.1) low (high + 1)

/-- Whether a term is a zero extension of a concatenation that begins with a literal. -/
def coversLit : Term → Bool
  | zeroExtend _ t => t.beginsWithLit
  | _ => false

/-- A zero above a zero extension is cropped as one longer zero. -/
theorem mkConcat_cropAll_zero (h : Fitting [zero k, zeroExtend j y])
    (hlit : y.beginsWithLit = false) (low top : Nat) :
    mkConcat (cropAll low top [zero k, zeroExtend j y])
      = mkConcat (cropAll low top (zero (k + j) :: flatten y)) := by
  obtain ⟨hext, hn⟩ := h.tail.head
  have hfits := zero_flatten_fits hext hn
  have hlt : k + ((zeroExtend j y).width + 0) < Width.limit := h.totalWidth_lt
  have hwidth := width_zeroExtend hext.2
  have hcount : totalWidth (zero j :: flatten y) = (zeroExtend j y).width := by
    rw [totalWidth_cons, width_zero, totalWidth_flatten hext.1, hwidth]
  have htwo : Fitting ([zero k, zero j] ++ flatten y) :=
    hfits.cons h.head (by rw [hcount]; exact hlt)
  have hjoin : join? (zero k) (zero j) = some (zero (k + j)) :=
    join?_zero_lit hfits.head.1
  rw [mkConcat_congr (joinParts_cropAll_join htwo hjoin)]
  exact mkConcat_cropAll_zero_cons h hfits hcount
    (fun hle hhigh => mkExtract_zeroExtend ⟨hext, hle, hhigh⟩ hn fun _ _ => hlit) low top

/-- An extraction from a term with zeros above it, which are not joined to a literal. -/
theorem mkExtract_mkZeroExtend (h : x.WellFormed) (hn : x.Normal) (hk : k ≠ 0)
    (hlt : k + x.width < Width.limit) (hlit : x.isLit = false) (hbegin : x.beginsWithLit = false)
    (hcover : x.coversLit = false) (hle : low ≤ high) (hhigh : high < k + x.width) :
    mkExtract high low (mkZeroExtend k x)
      = mkConcat (cropAll low (high + 1) (zero k :: flatten x)) := by
  rcases hext : x.isZeroExtend with _ | _
  · have hxn : (zeroExtend k x).Normal := ⟨hn, hk, hlit, hext⟩
    have hx : (extract high low (zeroExtend k x)).WellFormed :=
      ⟨⟨h, hlt⟩, hle, by rwa [width_zeroExtend hlt]⟩
    rw [mkZeroExtend_of_normal hxn, mkExtract_zeroExtend hx hxn fun _ _ => hbegin]
  · cases x with
    | zeroExtend j y =>
      have hwidth := width_zeroExtend h.2
      have hy : (zeroExtend (k + j) y).WellFormed := ⟨h.1, by omega⟩
      have hyn : (zeroExtend (k + j) y).Normal := ⟨hn.1, by omega, hn.2.2⟩
      have hpair : Fitting [zero k, zeroExtend j y] :=
        (Fitting.singleton h hn).cons
          ⟨wellFormed_zero ⟨Nat.pos_of_ne_zero hk, by omega⟩, trivial⟩ hlt
      have hmerge : mkZeroExtend k (zeroExtend j y) = zeroExtend (k + j) y := by
        simp only [mkZeroExtend, hk, if_false]
      rw [hmerge, mkExtract_zeroExtend ⟨hy, hle, by rw [width_zeroExtend hy.2]; omega⟩ hyn
        fun _ _ => hcover, ← mkConcat_cropAll_zero hpair hcover]
      rfl
    | _ => cases hext

/-! ## Joined parts -/

theorem isLit_of_isZero (h : t.isZero = true) : t.isLit = true := by
  cases t with
  | lit => rfl
  | _ => cases h

theorem not_lit_of_apart (hzero : z.isZero = true) (h : join? z u = none) : u.isLit = false := by
  rw [eq_zero_of_isZero hzero] at h
  cases u with
  | lit => cases h
  | _ => rfl

theorem not_lit_of_flatten (h : flatten x = u :: us) (hu : u.isLit = false) :
    x.isLit = false ∧ x.beginsWithLit = false := by
  cases x with
  | lit =>
    obtain ⟨rfl, -⟩ := List.cons.inj h
    cases hu
  | concat ts =>
    obtain rfl : ts = u :: us := h
    cases u with
    | lit => cases hu
    | _ => exact ⟨rfl, rfl⟩
  | _ => exact ⟨rfl, rfl⟩

theorem isLit_slice (hsolid : x.isSolid = true) : (slice high low x).isLit = false := by
  fun_cases slice high low x with
  | case1 => cases x <;> first | rfl | cases hsolid
  | case2 => rfl

theorem join?_isZero (h : Fitting [u, t]) (hs : join? u t = some s) (hzero : s.isZero = true) :
    u.isZero = true ∧ t.isZero = true := by
  revert hs
  fun_cases join? u t with
  | case1 a w b w' =>
    rintro ⟨⟩
    simp only [const, Word.truncate_of_lt (Word.shiftLeft_or_lt h.head.1.1 h.tail.head.1.1),
      isZero, beq_iff_eq, Nat.or_eq_zero_iff, Nat.shiftLeft_eq_zero_iff] at hzero ⊢
    exact hzero
  | case2 hi lo x hi' lo' x' hmeet =>
    rintro ⟨⟩
    have hlit := isLit_of_isZero hzero
    rw [isLit_slice h.head.2.2.1] at hlit
    cases hlit
  | case3 | case4 => rintro ⟨⟩

theorem join?_isLit (hn : u.Normal) (hs : join? u t = some s) : s.isLit = u.isLit := by
  revert hs
  fun_cases join? u t with
  | case1 =>
    rintro ⟨⟩
    rfl
  | case2 =>
    rintro ⟨⟩
    exact isLit_slice hn.2.1
  | case3 | case4 => rintro ⟨⟩

/-- The joined parts begin with a literal if the parts do, and only then. -/
theorem isLit_of_joinParts_cons (h : Fitting (t :: ts)) (ht : t.isConcat = false)
    (hjoin : joinParts (t :: ts) = u :: us) : u.isLit = t.isLit := by
  rcases joinParts_cons_cases h ht with
    ⟨rfl, hcons⟩ | ⟨v, vs, -, -, ⟨-, hcons⟩ | ⟨s, hs, hcons⟩⟩
  all_goals
    rw [hcons] at hjoin
    cases hjoin
  · rfl
  · rfl
  · exact join?_isLit h.head.2 hs

theorem leadsZero_flat_cons (h : Fitting (t :: ts)) (ht : t.isConcat = false)
    (hlead : LeadsZero (t :: ts)) :
    t.isZero = true ∧ ∃ u us, joinParts ts = u :: us ∧ (u.isLit = false ∨ LeadsZero ts) := by
  obtain ⟨z, v, vs, hjoin, hzero⟩ := hlead
  rcases joinParts_cons_cases h ht with
    ⟨rfl, hcons⟩ | ⟨u, us, hrest, hfits, ⟨hs, hcons⟩ | ⟨s, hs, hcons⟩⟩
  all_goals
    rw [hcons] at hjoin
    cases hjoin
  · exact ⟨hzero, _, _, hrest, .inl (not_lit_of_apart hzero hs)⟩
  · obtain ⟨ht0, hu0⟩ := join?_isZero hfits.left hs hzero
    exact ⟨ht0, u, _, hrest, .inr ⟨u, _, _, hrest, hu0⟩⟩

/-- Where the joined parts begin with a zero, so do the parts, and what follows the first one is not
joined to it or begins with a zero too. -/
theorem leadsZero_cons (h : Fitting (t :: ts)) (hlead : LeadsZero (t :: ts)) :
    t.isZero = true ∧ ∃ u us, joinParts ts = u :: us ∧ (u.isLit = false ∨ LeadsZero ts) := by
  rcases hcat : t.isConcat with _ | _
  · exact leadsZero_flat_cons h hcat hlead
  -- A concatenation does not begin with a zero.
  cases t with
  | concat us =>
    rcases us with _ | ⟨f, fs⟩
    · exact absurd rfl h.head.1.1
    have hflat := h.head.2.2.flat
    have hfits : Fitting ((f :: fs) ++ ts) := by
      have hlt : (concat (f :: fs)).width + totalWidth ts < Width.limit := h.totalWidth_lt
      rw [width_concat] at hlt
      exact Fitting.append_iff.2 ⟨.of_concat h.head.1 h.head.2, h.tail, hlt⟩
    have hopen : joinParts (concat (f :: fs) :: ts) = joinParts (f :: (fs ++ ts)) := by
      have hself : joinParts [concat (f :: fs)] = joinParts (f :: fs) := by
        rw [joinParts_singleton h.head.2, joinParts_of_apart hflat h.head.2.2.apart, flatten]
      exact @joinParts_append_congr [concat (f :: fs)] (f :: fs) ts ts h hfits hself rfl
    have hzero := (leadsZero_flat_cons hfits (hflat f List.mem_cons_self)
      ((leadsZero_congr hopen).1 hlead)).1
    rw [h.head.2.2.head f rfl] at hzero
    cases hzero
  | _ => cases hcat

theorem not_leadsZero_singleton (hn : t.Normal) : ¬ LeadsZero [t] := by
  rintro ⟨z, u, us, hjoin, hzero⟩
  rw [joinParts_singleton hn] at hjoin
  cases t with
  | concat ts =>
    have hhead := hn.2.head z (by rw [show ts = _ from hjoin]; rfl)
    rw [hhead] at hzero
    cases hzero
  | _ => cases hjoin

/-- What stands below a leading zero is not joined to it, and so is not a literal and does not begin
with one. -/
theorem flatten_below_zero (h : Fitting ts) (hjoin : joinParts ts = z :: u :: us)
    (hzero : z.isZero = true) :
    flatten (mkConcat (u :: us)) = u :: us ∧ (mkConcat (u :: us)).isLit = false
      ∧ (mkConcat (u :: us)).beginsWithLit = false := by
  have hfits := h.joined
  have hred := joinParts_reduced h.normal
  rw [hjoin] at hfits hred
  have hu := not_lit_of_apart hzero hred.apart.1
  have hself : joinParts (u :: us) = u :: us :=
    joinParts_of_apart (fun v hv => (hred.plain v (List.mem_cons_of_mem _ hv)).2) hred.apart.2
  have hopen : flatten (mkConcat (u :: us)) = u :: us := by
    rw [flatten_mkConcat hfits.tail (by simp), hself]
    intro hlead
    have hlit := isLit_of_isZero (leadsZero_cons hfits.tail hlead).1
    rw [hlit] at hu
    cases hu
  exact ⟨hopen, not_lit_of_flatten hopen hu⟩

/-- An extraction from what was put together reads the joined parts. -/
theorem mkExtract_of_joinParts (h : Fitting ts) (hne : ts ≠ []) (hle : low ≤ high)
    (hhigh : high < totalWidth ts)
    (hcover : ∀ z u, joinParts ts = [z, u] → z.isZero = true → u.coversLit = false) :
    mkExtract high low (mkConcat ts) = mkConcat (cropAll low (high + 1) (joinParts ts)) := by
  obtain ⟨hwf, hn, hwidth⟩ := mkConcat_fits h hne
  have hcut : (extract high low (mkConcat ts)).WellFormed := ⟨hwf, hle, by omega⟩
  have hfits := h.joined
  rcases hjoin : joinParts ts with _ | ⟨z, _ | ⟨u, us⟩⟩
  · exact absurd hjoin (joinParts_ne_nil h.normal hne)
  · have hmk : mkConcat ts = z := by rw [mkConcat, hjoin]
    rw [hmk] at hcut hn ⊢
    have hlt := hcut.2.2
    rw [cropAll_singleton, crop_of_lt (by omega) (by omega), Nat.add_sub_cancel,
      mkConcat_self (mkExtract_normal z hcut.regular hn)]
  rcases hzero : z.isZero with _ | _
  · rw [mkConcat_of_not_zero hjoin hzero] at hcut hn ⊢
    exact mkExtract_concat hcut hn
  -- A zero extension of what the other parts make.
  obtain ⟨hopen, hlit, hbegin⟩ := flatten_below_zero h hjoin hzero
  rw [hjoin] at hfits
  obtain ⟨hxwf, hxn, hxwidth⟩ := mkConcat_fits hfits.tail (by simp)
  have hlt := hfits.totalWidth_lt
  have hcount := totalWidth_joinParts h
  rw [hjoin] at hcount
  rw [totalWidth_cons, ← hxwidth] at hlt hcount
  have hnone : (mkConcat (u :: us)).coversLit = false := by
    cases hx : mkConcat (u :: us) with
    | zeroExtend j y =>
      rw [hx] at hopen
      obtain ⟨rfl, rfl⟩ := List.cons.inj hopen
      exact hcover z _ hjoin hzero
    | _ => rfl
  rw [mkConcat_of_zero h hjoin hzero (by simp),
    mkExtract_mkZeroExtend hxwf hxn (Nat.ne_of_gt hfits.head.1.width_pos) hlt hlit hbegin hnone
      hle (by omega), hopen, ← eq_zero_of_isZero hzero]

/-! ## Opened parts -/

theorem flatten_of_flat (h : t.isConcat = false) : flatten t = [t] := by
  cases t with
  | concat => cases h
  | _ => rfl

/-- However a term is cropped, its parts may be cropped instead. -/
def Opens (t : Term) : Prop :=
  ∀ low top, joinParts (crop low top t) = joinParts (cropAll low top (flatten t))

theorem opens_of_flat (h : t.isConcat = false) : Opens t := fun low top => by
  rw [flatten_of_flat h, cropAll_singleton]

theorem joinParts_crop_concat (h : (concat ts).WellFormed) (hn : (concat ts).Normal)
    (hlead : ¬ LeadsZero (cropAll low top ts)) :
    joinParts (crop low top (concat ts)) = joinParts (cropAll low top ts) := by
  have hfits := Fitting.of_concat h hn
  have hwidth := width_concat ts
  rcases crop_cases h low top with ⟨hempty, hcrop⟩ | ⟨hlow, hcrop, hwf⟩
  · have hnone : cropAll low top ts = [] := by
      rw [← cropAll_min]
      exact cropAll_of_le (by omega) ts
    rw [hcrop, hnone]
  · have hrest := (cropAll_fits ts hfits low top).1
    have hne := cropAll_ne_nil hfits (show low < top by omega) (by omega)
    rw [hcrop, mkExtract_concat hwf hn, Nat.sub_add_cancel (by omega), hwidth, cropAll_min,
      joinParts_singleton (mkConcat_fits hrest hne).2.1, flatten_mkConcat hrest hne hlead]

theorem opens_concat (h : (concat ts).WellFormed) (hn : (concat ts).Normal)
    (hlead : ∀ low top, ¬ LeadsZero (cropAll low top ts)) : Opens (concat ts) :=
  fun low top => joinParts_crop_concat h hn (hlead low top)

theorem not_leadsZero_nil : ¬ LeadsZero [] := by
  rintro ⟨z, u, us, hjoin, -⟩
  cases hjoin

theorem not_leadsZero_crop (h : t.WellFormed) (hn : t.Normal) : ¬ LeadsZero (crop low top t) := by
  rcases crop_cases h low top with ⟨-, hcrop⟩ | ⟨-, hcrop, hwf⟩
  · rw [hcrop]
    exact not_leadsZero_nil
  · rw [hcrop]
    exact not_leadsZero_singleton (mkExtract_normal t hwf.regular hn)

/-- A range that reaches the top begins as the term does, so a term may be opened there. -/
theorem joinParts_crop_top (h : t.WellFormed) (hn : t.Normal) (htop : t.width ≤ top) :
    joinParts (crop low top t) = joinParts (cropAll low top (flatten t)) := by
  rcases hcat : t.isConcat with _ | _
  · exact opens_of_flat hcat low top
  cases t with
  | concat ts =>
    refine joinParts_crop_concat h hn ?_
    have hlt := h.2.2
    rw [width_concat] at htop
    rcases ts with _ | ⟨t, ts⟩
    · exact absurd rfl h.1
    rw [totalWidth_cons] at htop
    have hfits : Fitting (t :: ts) := ⟨h.2.1, hn.1, hlt⟩
    rw [cropAll]
    by_cases hlow : totalWidth ts ≤ low
    · rw [cropAll_of_totalWidth_le ts hlow, List.append_nil]
      exact not_leadsZero_crop hfits.head.1 hfits.head.2
    · rw [Nat.sub_eq_zero_of_le (by omega), crop_whole hfits.head.1 (by omega)]
      intro hlead
      have hrest := cropAll_fits ts hfits.tail low top
      have hcons : Fitting (t :: cropAll low top ts) :=
        hrest.1.cons hfits.head (by rw [hrest.2]; rw [totalWidth_cons] at hlt; omega)
      have hzero := (leadsZero_cons hcons hlead).1
      rw [hn.2.head t rfl] at hzero
      cases hzero
  | _ => cases hcat

theorem joinParts_cropAll_opened : ∀ (ts : List Term), Fitting ts → (∀ t ∈ ts, Opens t) →
    joinParts (cropAll low top (ts.flatMap flatten)) = joinParts (cropAll low top ts)
  | [], _, _ => rfl
  | t :: ts, h, ho => by
    have ih := joinParts_cropAll_opened ts h.tail fun u hu => ho u (List.mem_cons_of_mem _ hu)
    have hcount := (flatMap_flatten_replaces h.tail.wellFormed).totalWidth_eq
    have hleft := (cropAll_fits _ h.opened low top).1
    have hright := (cropAll_fits _ h low top).1
    rw [List.flatMap_cons, cropAll_append, hcount] at hleft ⊢
    rw [cropAll] at hright ⊢
    exact joinParts_append_congr hleft hright (ho t List.mem_cons_self _ _).symm ih

/-- Parts may be joined before they are cropped if every concatenation among them opens. -/
theorem joinParts_cropAll_joinParts (h : Fitting ts) (ho : ∀ t ∈ ts, Opens t) :
    joinParts (cropAll low top (joinParts ts)) = joinParts (cropAll low top ts) := by
  rw [← joinParts_opened h,
    joinParts_cropAll_flat _ h.opened fun u hu => (h.opened_plain u hu).2,
    joinParts_cropAll_opened ts h ho]

/-- For what the parts make, the last one need not open: nothing stands below it. -/
theorem mkConcat_cropAll_joinParts (h : Fitting (ts ++ [t])) (ho : ∀ u ∈ ts, Opens u) :
    mkConcat (cropAll low top (joinParts (ts ++ [t])))
      = mkConcat (cropAll low top (ts ++ [t])) := by
  have hflat : ∀ u ∈ (ts ++ [t]).flatMap flatten, u.isConcat = false :=
    fun u hu => (h.opened_plain u hu).2
  have ht := h.right.head
  have hcount := totalWidth_flatten ht.1
  have hopen : (ts ++ [t]).flatMap flatten = ts.flatMap flatten ++ flatten t := by
    rw [List.flatMap_append, List.flatMap_singleton]
  rw [← joinParts_opened h, mkConcat_congr (joinParts_cropAll_flat _ h.opened hflat)]
  have hleft := (cropAll_fits _ h.opened low top).1
  have hright := (cropAll_fits _ h low top).1
  rw [hopen, cropAll_append, hcount] at hleft ⊢
  rw [cropAll_append, cropAll_singleton, totalWidth_cons, totalWidth_nil, Nat.add_zero] at hright ⊢
  by_cases htop : t.width ≤ top
  · refine mkConcat_congr (joinParts_append_congr hleft hright ?_ ?_)
    · exact joinParts_cropAll_opened ts h.left ho
    · exact (joinParts_crop_top ht.1 ht.2 htop).symm
  · rw [show top - t.width = 0 by omega, cropAll_of_le (Nat.zero_le _),
      cropAll_of_le (Nat.zero_le _), List.nil_append, List.nil_append]
    by_cases hlow : low < top
    · have hwf : (extract (top - 1) low t).WellFormed := ⟨ht.1, by omega, by omega⟩
      have hcut := mkExtract_flatten hwf ht.2
      rw [Nat.sub_add_cancel (by omega)] at hcut
      rw [crop_of_lt hlow (by omega), mkConcat_self (mkExtract_normal t hwf.regular ht.2), hcut]
    · rw [cropAll_of_le (by omega), crop_of_le (by omega)]

/-! ## Distribution -/

theorem coversLit_of_not_zeroExtend (h : t.isZeroExtend = false) : t.coversLit = false := by
  cases t with
  | zeroExtend => cases h
  | _ => rfl

theorem isAtomic_of_isZeroExtend (h : u.isZeroExtend = true) : u.isAtomic = false := by
  cases u with
  | zeroExtend => rfl
  | _ => cases h

theorem eq_singleton_of_joinParts (h : Fitting ts) (hflat : ∀ t ∈ ts, t.isConcat = false)
    (hjoin : joinParts ts = [u]) (hu : u.isZeroExtend = true) : ts = [u] := by
  rcases ts with _ | ⟨t, ts⟩
  · cases hjoin
  rcases joinParts_cons_cases h (hflat t List.mem_cons_self) with
    ⟨rfl, hcons⟩ | ⟨v, vs, -, -, ⟨-, hcons⟩ | ⟨s, hs, hcons⟩⟩
  all_goals
    rw [hcons] at hjoin
    cases hjoin
  · rfl
  · have hatomic := join?_atomic h.head.2 hs
    rw [isAtomic_of_isZeroExtend hu] at hatomic
    cases hatomic

/-- A zero above a zero extension was joined from zeros. -/
theorem zeros_of_joinParts : ∀ (ts : List Term) {z : Term}, Fitting ts →
    (∀ t ∈ ts, t.isConcat = false) → joinParts ts = [z, u] → z.isZero = true →
    u.isZeroExtend = true → ∃ zs, ts = zs ++ [u] ∧ zs ≠ [] ∧ ∀ f ∈ zs, f.isZero = true
  | [], _, _, _, hjoin, _, _ => by cases hjoin
  | t :: ts, z, h, hflat, hjoin, hzero, hu => by
    have hrest : ∀ v ∈ ts, v.isConcat = false := fun v hv => hflat v (List.mem_cons_of_mem _ hv)
    rcases joinParts_cons_cases h (hflat t List.mem_cons_self) with
      ⟨rfl, hcons⟩ | ⟨v, vs, hbelow, hfits, ⟨hs, hcons⟩ | ⟨s, hs, hcons⟩⟩
    all_goals
      rw [hcons] at hjoin
      cases hjoin
    · rw [eq_singleton_of_joinParts h.tail hrest hbelow hu]
      exact ⟨[t], rfl, by simp, by simpa using hzero⟩
    · obtain ⟨ht0, hv0⟩ := join?_isZero hfits.left hs hzero
      obtain ⟨zs, rfl, -, hzs⟩ := zeros_of_joinParts ts h.tail hrest hbelow hv0 hu
      exact ⟨t :: zs, rfl, by simp, List.forall_mem_cons.2 ⟨ht0, hzs⟩⟩

theorem isZero_of_flatten (h : t.WellFormed) (hn : t.Normal)
    (hall : ∀ f ∈ flatten t, f.isZero = true) : t.isZero = true := by
  cases t with
  | concat ts =>
    rcases ts with _ | ⟨f, fs⟩
    · exact absurd rfl h.1
    · have hzero := hall f List.mem_cons_self
      rw [hn.2.head f rfl] at hzero
      cases hzero
  | _ => exact hall _ List.mem_cons_self

theorem zeros_above (h : Fitting (ts ++ [t])) (hjoin : joinParts (ts ++ [t]) = [z, u])
    (hzero : z.isZero = true) (hu : u.isZeroExtend = true) :
    t = u ∧ ∃ f, ts.getLast? = some f ∧ f.isZero = true := by
  rw [← joinParts_opened h] at hjoin
  obtain ⟨zs, hzs, hne, hall⟩ := zeros_of_joinParts _ h.opened
    (fun v hv => (h.opened_plain v hv).2) hjoin hzero hu
  rw [List.flatMap_append, List.flatMap_singleton] at hzs
  have ht := h.right.head
  rcases hcat : t.isConcat with _ | _
  · rw [flatten_of_flat hcat] at hzs
    obtain ⟨hts, htu⟩ := List.append_inj' hzs rfl
    refine ⟨List.singleton_inj.1 htu, ?_⟩
    rcases List.eq_nil_or_concat ts with rfl | ⟨ss, f, rfl⟩
    · exact absurd hts.symm hne
    · rw [List.concat_eq_append] at h hts ⊢
      obtain ⟨hwf, hn⟩ := h.left.right.head
      refine ⟨f, by simp, isZero_of_flatten hwf hn fun g hg => hall g ?_⟩
      rw [← hts, List.flatMap_append, List.flatMap_singleton]
      exact List.mem_append_right _ hg
  · -- The first part of a concatenation is above its last one and is no zero.
    cases t with
    | concat us =>
      rcases us with _ | ⟨f, _ | ⟨g, us⟩⟩
      · exact absurd rfl ht.1.1
      · exact absurd ht.2.2.two_le (by simp)
      · have hdrop := congrArg List.dropLast hzs
        rw [List.dropLast_concat, flatten, List.dropLast_append_cons] at hdrop
        have hf := hall f (by rw [← hdrop]; simp)
        rw [ht.2.2.head f rfl] at hf
        cases hf
    | _ => cases hcat

/-- An extraction from what was put together is the concatenation of the cropped parts, if the parts
above the last one open and no zero stands right above a zero extension that covers a literal. -/
theorem mkExtract_mkConcat (h : Fitting (ts ++ [t])) (ho : ∀ u ∈ ts, Opens u)
    (hcover : ∀ z, ts.getLast? = some z → z.isZero = true → t.coversLit = false) (hle : low ≤ high)
    (hhigh : high < totalWidth (ts ++ [t])) :
    mkExtract high low (mkConcat (ts ++ [t])) = mkConcat (cropAll low (high + 1) (ts ++ [t])) := by
  rw [mkExtract_of_joinParts h (by simp) hle hhigh, mkConcat_cropAll_joinParts h ho]
  intro z u hjoin hzero
  rcases hext : u.isZeroExtend with _ | _
  · exact coversLit_of_not_zeroExtend hext
  · obtain ⟨rfl, f, hlast, hf⟩ := zeros_above h hjoin hzero hext
    exact hcover f hlast hf

end Term

end SymWord
