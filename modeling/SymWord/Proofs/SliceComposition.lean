import SymWord.Proofs.NestedSlices

/-!
# Which terms compose

The check for slices of slices is exact (`composes_iff`). What `Composable` asks of a part follows
from the law for the term around it. A slice inside a part is a slice of the term. A part below a
zero can be taken with the zero, which has to come off again (`mkExtract_mkConcat_ne`). A part above
others can be taken with one bit of them, which must not change how it is cut
(`opens_of_bit_below`).
-/

namespace SymWord

namespace Term

variable {p q r s t u x y z : Term} {ps qs ss ts us : List Term} {low top high j k : Nat}
  {above below : Bool}

/-! ## Leading zeros -/

theorem join?_zero_none (hzero : z.isZero = true) (h : t.isLit = false) : join? z t = none := by
  rw [eq_zero_of_isZero hzero]
  exact join?_zero_of_not_lit h

/-- A zero stays the first part above a part that is no literal. -/
theorem leadsZero_of_not_lit (h : Fitting (z :: t :: ts)) (hzero : z.isZero = true)
    (ht : t.isConcat = false) (hlit : t.isLit = false) : LeadsZero (z :: t :: ts) := by
  have hz : z.isConcat = false := isConcat_of_isLit (isLit_of_isZero hzero)
  rcases hrest : joinParts (t :: ts) with _ | ⟨u, us⟩
  · exact absurd hrest (joinParts_ne_nil h.tail.normal (by simp))
  have hu : u.isLit = false := (isLit_of_joinParts_cons h.tail ht hrest).trans hlit
  exact ⟨z, u, us, joinParts_cons_of_apart h hz hrest (join?_zero_none hzero hu), hzero⟩

theorem LeadsZero.zero_cons (hlead : LeadsZero ts) (h : Fitting (z :: ts))
    (hzero : z.isZero = true) : LeadsZero (z :: ts) := by
  obtain ⟨y, u, us, hjoin, hy⟩ := hlead
  have hfits := h.cons_joined
  have hlt := hfits.totalWidth_lt
  rw [hjoin] at hfits hlt
  obtain ⟨j, rfl⟩ : ∃ j, y = zero j := ⟨_, eq_zero_of_isZero hy⟩
  obtain ⟨k, rfl⟩ : ∃ k, z = zero k := ⟨_, eq_zero_of_isZero hzero⟩
  rw [totalWidth_cons, totalWidth_cons, width_zero, width_zero] at hlt
  exact ⟨zero (k + j), u, us, joinParts_cons_of_join h rfl hjoin
    (join?_zero_lit hfits.tail.head.1), rfl⟩

theorem LeadsZero.append (hlead : LeadsZero ps) (h : Fitting (ps ++ qs)) :
    LeadsZero (ps ++ qs) := by
  obtain ⟨z, u, us, hjoin, hzero⟩ := hlead
  have hred := joinParts_reduced h.left.normal
  have hsame := joinParts_joinParts_append h
  rw [hjoin] at hred hsame
  refine (leadsZero_congr hsame).1 (leadsZero_of_not_lit ?_ hzero (hred.plain u (by simp)).2
    (not_lit_of_apart hzero hred.apart.1))
  obtain ⟨hps, hqs, hlt⟩ := Fitting.append_iff.1 h
  have hcount := totalWidth_joinParts hps
  have hfits := hps.joined
  rw [hjoin] at hfits hcount
  exact Fitting.append_iff.2 ⟨hfits, hqs, by omega⟩

/-- Whether a range begins with a zero does not depend on where it ends. -/
theorem leadsZero_cropAll_zero : ∀ (ts : List Term), Fitting ts →
    (∀ t ∈ ts, t.isConcat = false) → LeadsZero (cropAll low top ts) → LeadsZero (cropAll 0 top ts)
  | [], _, _, hlead => absurd hlead not_leadsZero_nil
  | t :: ts, h, hflat, hlead => by
    have ih := leadsZero_cropAll_zero ts h.tail fun u hu => hflat u (List.mem_cons_of_mem _ hu)
    have hfits := (cropAll_fits _ h 0 top).1
    rw [cropAll, Nat.zero_sub] at hfits ⊢
    rcases leadsZero_cropAll_cons h hlead with
      ⟨hcrop, hrest⟩ | ⟨high, -, htop, hcrop, hzero, hrest | ⟨u, us, rfl, hlit⟩⟩
    · rw [hcrop]
      exact ih hrest
    · rw [hcrop] at hfits ⊢
      exact (ih hrest).zero_cons hfits hzero
    · rw [hcrop, cropAll_whole _ h.tail.wellFormed (by omega)] at hfits ⊢
      exact leadsZero_of_not_lit hfits hzero (hflat u (by simp)) hlit

theorem mkExtract_zero_of_endsInZero (h : t.WellFormed) (hends : t.endsInZero = true) :
    mkExtract 0 0 t = zero 1 := by
  have hwf : (extract 0 0 t).WellFormed := ⟨h, Nat.le_refl 0, h.width_pos⟩
  have hwidth := (mkExtract_replaces t hwf).width_eq
  rw [width_extract] at hwidth
  rw [eq_zero_of_isZero hends, hwidth]

/-- At a seam a range begins with a zero. -/
theorem leadsZero_of_hasSeam : ∀ (ts : List Term), Fitting ts →
    (∀ t ∈ ts, t.isConcat = false) → hasSeam ts = true →
      ∃ top, top ≤ totalWidth ts ∧ LeadsZero (cropAll 0 top ts)
  | [], _, _, hseam | [_], _, _, hseam => by cases hseam
  | t :: u :: ts, h, hflat, hseam => by
    have hpos := h.head.1.width_pos
    rw [hasSeam, Bool.or_eq_true, Bool.and_eq_true] at hseam
    rcases hseam with ⟨hends, hlit⟩ | hseam
    · refine ⟨totalWidth (u :: ts) + 1, by rw [totalWidth_cons t]; omega, ?_⟩
      have hfits := (cropAll_fits _ h 0 (totalWidth (u :: ts) + 1)).1
      rw [cropAll, Nat.zero_sub, Nat.add_sub_cancel_left, crop_of_lt Nat.one_pos hpos,
        cropAll_whole _ h.tail.wellFormed (by omega), List.singleton_append] at hfits ⊢
      exact leadsZero_of_not_lit hfits hends (hflat u (by simp)) (by simpa using hlit)
    · obtain ⟨top, htop, hlead⟩ := leadsZero_of_hasSeam (u :: ts) h.tail
        (fun v hv => hflat v (List.mem_cons_of_mem _ hv)) hseam
      refine ⟨top, by rw [totalWidth_cons t]; omega, ?_⟩
      rw [cropAll, crop_of_le (by omega)]
      exact hlead

/-! ## The two failures -/

/-- A zero put above a zero extension over a literal is not taken off again. -/
theorem mkExtract_mkConcat_ne (h : Fitting [zero 1, q]) (hq : q.coversLit = true) :
    mkExtract (q.width - 1) 0 (mkConcat [zero 1, q]) ≠ q := by
  cases q with
  | zeroExtend j y =>
    obtain ⟨hext, hn⟩ := h.tail.head
    have hlt : 1 + ((zeroExtend j y).width + 0) < Width.limit := h.totalWidth_lt
    have hwidth := width_zeroExtend hext.2
    have hself := mkConcat_self hn
    have hlong : (zeroExtend (1 + j) y).WellFormed := ⟨hext.1, by omega⟩
    have hlongn : (zeroExtend (1 + j) y).Normal := ⟨hn.1, by omega, hn.2.2⟩
    have hlongw := width_zeroExtend hlong.2
    have hmerge : mkConcat [zero 1, zeroExtend j y] = zeroExtend (1 + j) y := by
      rw [mkConcat_zero_cons h (by simp) (by rw [hself]; rfl), hself]
      simp only [mkZeroExtend, Nat.one_ne_zero, if_false]
    have hfits := zero_fits hext hn
    obtain ⟨v, w, u, us, rfl⟩ := eq_concat_of_beginsWithLit hn.1 hq
    have hk := hn.2.1
    rw [hmerge, mkExtract_zeroExtend_pair ⟨hlong, Nat.zero_le _, by omega⟩ hlongn (by omega),
      cropAll_pair, Nat.zero_sub, crop_whole hext.1 (by omega), crop_zero (by omega) (by omega),
      show min ((zeroExtend j (concat (lit v w :: u :: us))).width - 1 + 1
        - (concat (lit v w :: u :: us)).width) (1 + j) - 0 = j by omega, List.singleton_append,
      mkConcat_zero_lit hfits]
    rintro ⟨⟩
  | _ => cases hq

theorem isZeroExtend_mkZeroExtend (hk : k ≠ 0) (hlit : t.isLit = false) :
    (mkZeroExtend k t).isZeroExtend = true := by
  fun_cases mkZeroExtend k t with
  | case1 => exact absurd ‹k = 0› hk
  | case2 => cases hlit
  | case3 | case4 => rfl

theorem isZeroExtend_of_leadsZero (h : Fitting ts) (hlead : LeadsZero ts) :
    (mkConcat ts).isZeroExtend = true := by
  obtain ⟨z, u, us, hjoin, hzero⟩ := hlead
  have hfits := h.joined
  rw [hjoin] at hfits
  have hk := Nat.ne_of_gt hfits.head.1.width_pos
  obtain ⟨-, hlit, -⟩ := flatten_below_zero h hjoin hzero
  rw [mkConcat_of_zero h hjoin hzero (by simp)]
  exact isZeroExtend_mkZeroExtend hk hlit

theorem mkConcat_pair_of_isZeroExtend (hp : p.isZeroExtend = true) (hr : r.isConcat = false) :
    mkConcat [p, r] = concat [p, r] := by
  cases p with
  | zeroExtend k x =>
    refine mkConcat_of_joined ⟨by simp, by simpa using ⟨rfl, hr⟩, ⟨?_, trivial⟩, by simp [isZero]⟩
    cases r <;> rfl
  | _ => cases hp

/-- If a bit below a term never matters for its low slices, the term opens. -/
theorem opens_of_bit_below (h : Fitting [p, r]) (hr : r.width = 1)
    (hbelow : ∀ high < p.width, mkExtract (high + 1) 0 (mkConcat [p, r])
      = mkConcat [mkExtract high 0 p, r]) : Opens p := by
  obtain ⟨hp, hn⟩ := h.head
  have hrflat := isConcat_of_width h.tail.head.1 h.tail.head.2 hr
  rcases hcat : p.isConcat with _ | _
  · exact opens_of_flat hcat
  cases p with
  | concat us =>
    have hfits := Fitting.of_concat hp hn
    have hwidth := width_concat us
    refine opens_concat hp hn fun low top hlead => ?_
    have hzero := leadsZero_cropAll_zero us hfits hn.2.flat hlead
    rw [← cropAll_min] at hzero
    obtain ⟨m, hm⟩ : ∃ m, min top (totalWidth us) = m := ⟨_, rfl⟩
    rw [hm] at hzero
    have hne : cropAll 0 m us ≠ [] := fun hnil => by
      rw [hnil] at hzero
      exact not_leadsZero_nil hzero
    obtain ⟨hmpos, -⟩ := lt_of_cropAll hne
    obtain ⟨hcrop, hcount⟩ := cropAll_fits us hfits 0 m
    have hlaw := hbelow (m - 1) (by omega)
    -- On its own, the slice is a zero extension, which the bit below leaves alone.
    rw [mkExtract_concat ⟨hp, Nat.zero_le _, by omega⟩ hn, Nat.sub_add_cancel hmpos,
      mkConcat_pair_of_isZeroExtend (isZeroExtend_of_leadsZero hcrop hzero) hrflat] at hlaw
    -- Together with the bit, the parts are opened, and the zero comes first.
    have happ : Fitting (us ++ [r]) := by
      have hopened := h.opened
      rwa [List.flatMap_cons, List.flatMap_singleton, flatten_of_flat hrflat, flatten] at hopened
    have hjoin : joinParts [concat us, r] = joinParts (us ++ [r]) := by
      rw [← joinParts_opened h, List.flatMap_cons, List.flatMap_singleton, flatten_of_flat hrflat,
        flatten]
    have hflat : ∀ t ∈ us ++ [r], t.isConcat = false :=
      List.forall_mem_append.2 ⟨hn.2.flat, by simpa using hrflat⟩
    have hfit := (cropAll_fits _ happ 0 (m + 1)).1
    rw [mkExtract_of_joinParts h (by simp) (Nat.zero_le _) (by simp; omega), hjoin,
      mkConcat_congr (joinParts_cropAll_flat _ happ hflat)] at hlaw
    rw [cropAll_append, totalWidth_cons, totalWidth_nil, hr, Nat.zero_sub] at hlaw hfit
    · have hcat' := not_leadsZero_of_isConcat hfit (by rw [hlaw]; rfl)
      exact hcat' (LeadsZero.append hzero hfit)
    · intro z u hz hz0
      have hfirst := (leadsZero_cons h ⟨z, u, [], hz, hz0⟩).1
      cases hfirst
  | _ => cases hcat

/-! ## Slices of a concatenation that meet one part or two -/

theorem mkExtract_concat_part (h : (concat (ss ++ t :: ts)).WellFormed)
    (hn : (concat (ss ++ t :: ts)).Normal) (hle : low ≤ high) (hhigh : high < t.width) :
    mkExtract (high + totalWidth ts) (low + totalWidth ts) (concat (ss ++ t :: ts))
      = mkExtract high low t := by
  have hfits := Fitting.of_concat h hn
  obtain ⟨ht, htn⟩ := hfits.right.head
  have hwf : (extract (high + totalWidth ts) (low + totalWidth ts)
      (concat (ss ++ t :: ts))).WellFormed := by
    refine ⟨h, by omega, ?_⟩
    rw [width_concat, totalWidth_append, totalWidth_cons]
    omega
  rw [mkExtract_concat hwf hn, cropAll_append, totalWidth_cons, cropAll_of_le (by omega), cropAll,
    cropAll_of_totalWidth_le ts (by omega), List.nil_append, List.append_nil, Nat.add_sub_cancel,
    show high + totalWidth ts + 1 - totalWidth ts = high + 1 by omega,
    crop_of_lt (by omega) (by omega), Nat.add_sub_cancel,
    mkConcat_self (mkExtract_normal t ⟨ht.regular, hle, hhigh⟩ htn)]

theorem mkExtract_concat_across (h : (concat (ss ++ t :: u :: ts)).WellFormed)
    (hn : (concat (ss ++ t :: u :: ts)).Normal) (hhigh : high < t.width) (hlow : low < u.width) :
    mkExtract (high + u.width + totalWidth ts) (low + totalWidth ts) (concat (ss ++ t :: u :: ts))
      = mkConcat [mkExtract high 0 t, mkExtract (u.width - 1) low u] := by
  have hwf : (extract (high + u.width + totalWidth ts) (low + totalWidth ts)
      (concat (ss ++ t :: u :: ts))).WellFormed := by
    refine ⟨h, by omega, ?_⟩
    rw [width_concat, totalWidth_append, totalWidth_cons, totalWidth_cons]
    omega
  rw [mkExtract_concat hwf hn, cropAll_append, totalWidth_cons, totalWidth_cons,
    cropAll_of_le (by omega), cropAll, cropAll, cropAll_of_totalWidth_le ts (by omega),
    totalWidth_cons, Nat.add_sub_cancel, Nat.sub_eq_zero_of_le (by omega),
    show high + u.width + totalWidth ts + 1 - (u.width + totalWidth ts) = high + 1 by omega,
    crop_of_lt (show 0 < high + 1 by omega) hhigh, crop_of_width_le (by omega),
    crop_of_lt hlow (Nat.le_refl _), List.nil_append, List.append_nil, Nat.add_sub_cancel,
    List.singleton_append]

theorem composes_of_part (h : (concat (ss ++ t :: ts)).WellFormed)
    (hn : (concat (ss ++ t :: ts)).Normal) (hc : Composes (concat (ss ++ t :: ts))) :
    Composes t := by
  intro high low high' low' hle hhigh hle' hhigh'
  have hwidth := width_concat (ss ++ t :: ts)
  rw [totalWidth_append, totalWidth_cons] at hwidth
  rw [← mkExtract_concat_part h hn hle hhigh, hc (by omega) (by omega) hle' (by omega),
    ← Nat.add_assoc, ← Nat.add_assoc, mkExtract_concat_part h hn (by omega) (by omega)]

theorem across_fits (h : (concat (ss ++ t :: u :: ts)).WellFormed)
    (hn : (concat (ss ++ t :: u :: ts)).Normal) (hhigh : high < t.width) (hlow : low < u.width) :
    Fitting [mkExtract high 0 t, mkExtract (u.width - 1) low u]
      ∧ (mkExtract high 0 t).width = high + 1
      ∧ (mkExtract (u.width - 1) low u).width = u.width - low := by
  have hfits := Fitting.of_concat h hn
  have hlt := hfits.right.totalWidth_lt
  have hupper : (extract high 0 t).WellFormed := ⟨hfits.right.head.1, Nat.zero_le _, hhigh⟩
  have hlower : (extract (u.width - 1) low u).WellFormed :=
    ⟨hfits.right.tail.head.1, by omega, by omega⟩
  have hrep := mkExtract_replaces t hupper
  have hrep' := mkExtract_replaces u hlower
  have hwidth := hrep.width_eq
  have hwidth' := hrep'.width_eq
  rw [width_extract] at hwidth
  rw [width_extract] at hwidth'
  rw [totalWidth_cons, totalWidth_cons] at hlt
  refine ⟨(Fitting.singleton hrep'.wellFormed (mkExtract_normal u hlower.regular
    hfits.right.tail.head.2)).cons ⟨hrep.wellFormed, mkExtract_normal t hupper.regular
    hfits.right.head.2⟩ ?_, by omega, by omega⟩
  rw [totalWidth_cons, totalWidth_nil]
  omega

/-- Under a zero, a part of a composing concatenation covers no literal. -/
theorem coversLit_of_composes (h : (concat (ss ++ t :: u :: ts)).WellFormed)
    (hn : (concat (ss ++ t :: u :: ts)).Normal) (hc : Composes (concat (ss ++ t :: u :: ts)))
    (hends : t.endsInZero = true) (hlow : low < u.width) :
    (mkExtract (u.width - 1) low u).coversLit = false := by
  rcases hcover : (mkExtract (u.width - 1) low u).coversLit with _ | _
  · rfl
  have hfits := Fitting.of_concat h hn
  have ht := hfits.right.head.1
  have hpos := ht.width_pos
  have hwidth := width_concat (ss ++ t :: u :: ts)
  rw [totalWidth_append, totalWidth_cons, totalWidth_cons] at hwidth
  obtain ⟨hpair, -, hqwidth⟩ := across_fits h hn hpos hlow
  have hfirst := mkExtract_concat_across h hn hpos hlow
  rw [mkExtract_zero_of_endsInZero ht hends] at hpair hfirst
  have hnested := hc (show low + totalWidth ts ≤ 0 + u.width + totalWidth ts by omega) (by omega)
    (show 0 ≤ u.width - low - 1 by omega) (by omega)
  have hlist : ss ++ t :: u :: ts = (ss ++ [t]) ++ u :: ts := by simp
  rw [hfirst, show u.width - low - 1 + (low + totalWidth ts) = u.width - 1 + totalWidth ts by omega,
    Nat.zero_add, hlist] at hnested
  rw [hlist] at h hn
  rw [mkExtract_concat_part h hn (by omega) (by omega), ← hqwidth] at hnested
  exact absurd hnested (mkExtract_mkConcat_ne hpair hcover)

/-- Above other parts, a part of a composing concatenation opens wherever it is cut. -/
theorem opens_of_composes (h : (concat (ss ++ t :: u :: ts)).WellFormed)
    (hn : (concat (ss ++ t :: u :: ts)).Normal) (hc : Composes (concat (ss ++ t :: u :: ts)))
    (hhigh : high < t.width) : Opens (mkExtract high 0 t) := by
  have hfits := Fitting.of_concat h hn
  have hpos := hfits.right.tail.head.1.width_pos
  have hwidth := width_concat (ss ++ t :: u :: ts)
  rw [totalWidth_append, totalWidth_cons, totalWidth_cons] at hwidth
  have hlow : u.width - 1 < u.width := by omega
  obtain ⟨hpair, hpwidth, hrwidth⟩ := across_fits h hn hhigh hlow
  refine opens_of_bit_below hpair (by omega) fun high' hhigh' => ?_
  have hfirst := mkExtract_concat_across h hn hhigh hlow
  have hdirect := mkExtract_concat_across h hn (show high' < t.width by omega) hlow
  have hpart := composes_of_part h hn hc (Nat.zero_le high) hhigh (Nat.zero_le high') (by omega)
  rw [Nat.add_zero, Nat.add_zero] at hpart
  rw [hpart, ← hdirect, ← hfirst, hc (by omega) (by omega) (Nat.zero_le _) (by omega), Nat.zero_add]
  congr 1
  omega

/-! ## Parts of composing terms -/

theorem allComposable_of_composes : ∀ (ts ss : List Term) {above : Bool},
    (concat (ss ++ ts)).WellFormed → (concat (ss ++ ts)).Normal → Composes (concat (ss ++ ts)) →
    (below = true → ∀ {high}, high < (concat (ss ++ ts)).width →
      Opens (mkExtract high 0 (concat (ss ++ ts)))) →
    (∀ t, ts.head? = some t → above = true → ∀ {low}, low < t.width →
      (mkExtract (t.width - 1) low t).coversLit = false) → AllComposable above below ts
  | [], _, _, _, _, _, _, _ => trivial
  | t :: ts, ss, above, h, hn, hc, hbottom, htop => by
    have hwidth := width_concat (ss ++ t :: ts)
    rw [totalWidth_append, totalWidth_cons] at hwidth
    have hlist : ss ++ t :: ts = (ss ++ [t]) ++ ts := by simp
    refine ⟨⟨composes_of_part h hn hc, htop t rfl, fun hflag high hhigh => ?_⟩,
      allComposable_of_composes ts (ss ++ [t]) (hlist ▸ h) (hlist ▸ hn) (hlist ▸ hc)
        (hlist ▸ hbottom) ?_⟩
    · rcases ts with _ | ⟨u, ts⟩
      · have hpart := mkExtract_concat_part h hn (Nat.zero_le high) hhigh
        rw [← hpart]
        exact hbottom (by simpa using hflag) (by simp only [totalWidth_nil] at hwidth ⊢; omega)
      · exact opens_of_composes h hn hc hhigh
    · rintro u hu hends low hlow
      rcases ts with _ | ⟨v, ts⟩
      · cases hu
      · obtain rfl := Option.some.inj hu
        exact coversLit_of_composes h hn hc hends hlow

theorem Composable.parts (hc : Composable above below (concat ts)) (h : (concat ts).WellFormed)
    (hn : (concat ts).Normal) : AllComposable above below ts := by
  refine allComposable_of_composes ts [] h hn hc.composes hc.bottom fun t ht habove low hlow => ?_
  rcases ts with _ | ⟨u, ts⟩
  · cases ht
  obtain rfl := Option.some.inj ht
  have hwidth := width_concat (u :: ts)
  rw [totalWidth_cons] at hwidth
  have hpart := @mkExtract_concat_part u [] ts low (u.width - 1) h hn (by omega) (by omega)
  have htop := hc.top habove (show low + totalWidth ts < (concat (u :: ts)).width by omega)
  rwa [show (concat (u :: ts)).width - 1 = u.width - 1 + totalWidth ts by omega,
    show concat (u :: ts) = concat ([] ++ u :: ts) from rfl, hpart] at htop

theorem Composable.hasSeam_eq_false (hc : Composable above true (concat ts))
    (h : (concat ts).WellFormed) (hn : (concat ts).Normal) : hasSeam ts = false := by
  rcases hseam : hasSeam ts with _ | _
  · rfl
  obtain ⟨top, -, hlead⟩ := leadsZero_of_hasSeam ts (.of_concat h hn) hn.2.flat hseam
  have hopen := hc.bottom rfl (Nat.sub_lt h.width_pos Nat.one_pos)
  rw [mkExtract_whole h] at hopen
  exact absurd ((leadsZero_congr (hopen 0 top)).2 hlead) (not_leadsZero_crop h hn)

theorem Composable.operand (hc : Composable above below (zeroExtend k x))
    (h : (zeroExtend k x).WellFormed) (hn : (zeroExtend k x).Normal) :
    Composable true below x where
  composes high low high' low' hle hhigh hle' hhigh' := by
    have hwidth := width_zeroExtend h.2
    rw [← mkExtract_zeroExtend_low h hn hle hhigh, hc.composes hle (by omega) hle' hhigh',
      mkExtract_zeroExtend_low h hn (by omega) (by omega)]
  top _ low hlow := by
    have hwidth := width_zeroExtend h.2
    have hlt := h.2
    have hk := hn.2.1
    rcases Nat.eq_zero_or_pos low with rfl | hpos
    · rw [mkExtract_whole h.1]
      exact coversLit_of_not_zeroExtend hn.2.2.2
    rcases hcover : (mkExtract (x.width - 1) low x).coversLit with _ | _
    · rfl
    -- One of the zeros is taken together with the top of the operand, and left again.
    have hwf : (extract (x.width - 1) low x).WellFormed := ⟨h.1, by omega, by omega⟩
    have hqwidth := (mkExtract_replaces x hwf).width_eq
    rw [width_extract] at hqwidth
    have hpair := (cropAll_fits _ (zero_fits h hn) low (x.width + 1)).1
    have hfirst := mkExtract_zeroExtend_pair (show (extract x.width low (zeroExtend k x)).WellFormed
      from ⟨h, by omega, by omega⟩) hn (by omega)
    rw [cropAll_pair, Nat.sub_eq_zero_of_le (by omega), Nat.add_sub_cancel_left,
      crop_zero (by omega) (by omega), crop_of_width_le (by omega),
      crop_of_lt hlow (Nat.le_refl _), Nat.min_eq_left (by omega), Nat.sub_zero,
      List.singleton_append] at hpair hfirst
    have hnested := hc.composes (show low ≤ x.width by omega) (by omega)
      (Nat.zero_le ((mkExtract (x.width - 1) low x).width - 1)) (by omega)
    rw [hfirst, hqwidth, show x.width - 1 - low + 1 - 1 + low = x.width - 1 by omega, Nat.zero_add,
      mkExtract_zeroExtend_low h hn (by omega) (by omega), ← hqwidth] at hnested
    exact absurd hnested (mkExtract_mkConcat_ne hpair hcover)
  bottom hbelow high hhigh := by
    have hwidth := width_zeroExtend h.2
    rw [← mkExtract_zeroExtend_low h hn (Nat.zero_le _) hhigh]
    exact hc.bottom hbelow (by omega)

mutual

theorem isComposable_of_composable : ∀ (t : Term) {above below : Bool}, t.WellFormed → t.Normal →
    Composable above below t → isComposable above below t = true
  | concat ts, above, below, h, hn, hc => by
    have hparts := areComposable_of_allComposable ts h.2.1 hn.1 (hc.parts h hn)
    rcases below with _ | _
    · simp [isComposable, hparts]
    · simp [isComposable, hparts, hc.hasSeam_eq_false h hn]
  | zeroExtend k x, above, below, h, hn, hc => by
    have hoperand := isComposable_of_composable x h.1 hn.1 (hc.operand h hn)
    rcases above with _ | _
    · simp [isComposable, hoperand]
    · have htop := hc.top rfl h.width_pos
      rw [mkExtract_whole h, coversLit] at htop
      simp [isComposable, hoperand, htop]
  | lit _ _, _, _, _, _, _ | sym _ _, _, _, _, _, _ | unary _ _, _, _, _, _, _
  | binary _ _ _, _, _, _, _, _ | compare _ _ _, _, _, _, _, _ | extract _ _ _, _, _, _, _, _
  | signExtend _ _, _, _, _, _, _ | apply _ _ _, _, _, _, _, _ | select _ _ _, _, _, _, _, _ => rfl

theorem areComposable_of_allComposable : ∀ (ts : List Term) {above below : Bool},
    AllWellFormed ts → AllNormal ts → AllComposable above below ts →
      areComposable above below ts = true
  | [], _, _, _, _, _ => rfl
  | t :: ts, above, below, h, hn, hc => by
    rw [areComposable, isComposable_of_composable t h.1 hn.1 hc.1,
      areComposable_of_allComposable ts h.2 hn.2 hc.2]
    rfl

end

theorem composes_iff (h : t.WellFormed) (hn : t.Normal) :
    Composes t ↔ isComposable false false t = true := by
  constructor
  · intro hc
    exact isComposable_of_composable t h hn ⟨hc, by simp, by simp⟩
  · intro hc
    exact (composable_of_isComposable t h hn hc).composes

-- The zeros at the bottom of the first literal can be taken with the second part and left again.
example : isComposable false false
    (concat [lit 4 4, zeroExtend 4 (concat [lit 5 4, sym "a" 8])]) = false := by decide

theorem extract_extract_replaces {high' low' : Nat} (h : t.WellFormed) (hle : low ≤ high)
    (hhigh : high < t.width) (hle' : low' ≤ high') (hhigh' : high' ≤ high - low) :
    Replaces (mkExtract high' low' (mkExtract high low t))
        (extract high' low' (extract high low t))
      ∧ Replaces (mkExtract (high' + low) (low' + low) t)
        (extract high' low' (extract high low t)) := by
  have hwf : (extract high low t).WellFormed := ⟨h, hle, hhigh⟩
  have hin := (mkExtract_replaces t hwf).extract hle' (by rw [width_extract]; omega)
  have hnode : (extract high' low' (extract high low t)).WellFormed :=
    ⟨hwf, hle', by rw [width_extract]; omega⟩
  have hnested := replaces_nested hnode
  exact ⟨(mkExtract_replaces _ hin.wellFormed).trans hin,
    (mkExtract_replaces t hnested.wellFormed).trans hnested⟩

end Term

namespace Value

variable {v : Value}

theorem extract_bind_extract {high low high' low' : Nat} (h : v.term.WellFormed) (hle : low ≤ high)
    (hhigh : high < v.width) (hle' : low' ≤ high') (hhigh' : high' ≤ high - low) :
    v.extract high low >>= (·.extract high' low')
      = .ok ⟨.mkExtract high' low' (.mkExtract high low v.term)⟩ := by
  have hwf : (Term.extract high low v.term).WellFormed := ⟨h, hle, hhigh⟩
  have hrep := Term.mkExtract_replaces v.term hwf
  have hwidth := hrep.width_eq
  rw [Term.width_extract] at hwidth
  rw [extract_eq h.regular hle hhigh]
  exact extract_eq (v := ⟨.mkExtract high low v.term⟩) hrep.wellFormed.regular hle'
    (show high' < (Term.mkExtract high low v.term).width by omega)

/-- A slice of a slice of a value and the slice of the value always exist, have one width and
evaluate to one number. They are the same value, for all ranges, exactly when the value is
composable. -/
theorem extract_extract_eq_iff (hv : v.Canonical) :
    (∀ high low high' low', low ≤ high → high < v.width → low' ≤ high' → high' ≤ high - low →
      ∃ u w, v.extract high low >>= (·.extract high' low') = .ok u
        ∧ v.extract (high' + low) (low' + low) = .ok w ∧ u.width = w.width
        ∧ ∀ b n, v.term.evaluate b = some n →
          ∃ m, u.term.evaluate b = some m ∧ w.term.evaluate b = some m)
      ∧ ((∀ high low high' low', low ≤ high → high < v.width → low' ≤ high' → high' ≤ high - low →
        v.extract high low >>= (·.extract high' low') = v.extract (high' + low) (low' + low))
          ↔ v.term.isComposable false false = true) := by
  obtain ⟨h, hnormalize⟩ := hv
  have hn : v.term.Normal := hnormalize ▸ Term.normalize_normal v.term h
  refine ⟨fun high low high' low' hle hhigh hle' hhigh' => ?_, ?_⟩
  · obtain ⟨hnested, hdirect⟩ := Term.extract_extract_replaces h hle hhigh hle' hhigh'
    refine ⟨_, _, extract_bind_extract h hle hhigh hle' hhigh',
      extract_eq h.regular (by omega) (by omega),
      hnested.width_eq.trans hdirect.width_eq.symm, fun b n hb => ?_⟩
    obtain ⟨m, hm⟩ : ∃ m,
        (Term.extract high' low' (.extract high low v.term)).evaluate b = some m :=
      ⟨_, by simp only [Term.evaluate, hb]; rfl⟩
    exact ⟨m, hnested.evaluate hm, hdirect.evaluate hm⟩
  · rw [← Term.composes_iff h hn]
    constructor
    · intro hall high low high' low' hle (hhigh : high < v.width) hle' hhigh'
      have heq := hall high low high' low' hle hhigh hle' hhigh'
      rw [extract_bind_extract h hle hhigh hle' hhigh', extract_eq h.regular (by omega)
        (by omega)] at heq
      exact congrArg term (Except.ok.inj heq)
    · intro hc high low high' low' hle hhigh hle' hhigh'
      rw [extract_bind_extract h hle hhigh hle' hhigh', extract_eq h.regular (by omega)
        (by omega), hc hle hhigh hle' hhigh']

/-- Zeros above the last part, with no literal or further part that they could be joined to. -/
theorem extract_extract_eq_extended :
    let v : Value := ⟨.concat [.sym "a" 8, .zeroExtend 4 (.sym "b" 8)]⟩
    v.Canonical ∧ v.extract 14 2 >>= (·.extract 11 3) = v.extract 13 5 := by
  intro v
  have hv : v.Canonical := by decide
  exact ⟨hv, (extract_extract_eq_iff hv).2.2 (by decide) 14 2 11 3 (by decide) (by decide)
    (by decide) (by decide)⟩

/-- The zero at the bottom of a literal becomes a leading zero in the slice of a slice, and stays
inside the upper part in the direct slice. -/
theorem extract_extract_ne :
    let v : Value := ⟨.concat [.zeroExtend 8 (.concat [.lit 2 2, .sym "y" 8]), .sym "z" 8]⟩
    v.Canonical
      ∧ v.extract 17 0 >>= (·.extract 16 0)
        = .ok ⟨.zeroExtend 1 (.concat [.sym "y" 8, .sym "z" 8])⟩
      ∧ v.extract 16 0 = .ok ⟨.concat [.zeroExtend 1 (.sym "y" 8), .sym "z" 8]⟩
      ∧ v.extract 17 0 >>= (·.extract 16 0) ≠ v.extract (16 + 0) (0 + 0) := by
  intro v
  have hnested : v.extract 17 0 >>= (·.extract 16 0)
      = .ok ⟨.zeroExtend 1 (.concat [.sym "y" 8, .sym "z" 8])⟩ := by rfl
  have hdirect : v.extract (16 + 0) (0 + 0)
      = .ok ⟨.concat [.zeroExtend 1 (.sym "y" 8), .sym "z" 8]⟩ := by rfl
  refine ⟨by decide, hnested, hdirect, ?_⟩
  rw [hnested, hdirect]
  rintro ⟨⟩

end Value

end SymWord
