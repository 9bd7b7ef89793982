import SymWord.Proofs.CanonicalValues
import SymWord.Proofs.SliceDistribution

/-!
# Slices of slices

A slice of a slice has the bits of one slice of the term, but it is not always the same term. The
first extraction brings parts together and normalizes what they make, and that shows in the second
one in two ways:

* Zeros taken from above a zero extension make it longer. When the second extraction leaves some of
  them, the zeros that stay are joined to a literal at the beginning of the operand. The direct
  slice does not touch the extension.
* A slice taken together with what is below it is opened. When the second extraction cuts it down to
  a range that begins with zeros, these zeros lead all that was taken. In the direct slice the range
  is a zero extension of its own, above the part below.

`isComposable` looks for both. The first needs zeros `above` a term, the second needs bits `below`
it, so the two flags say what a slice of the whole term may take together with a slice of this one.
The law for a concatenation needs more of its parts than the law: `Composable` has the three
properties that are carried through the recursion.
-/

namespace SymWord

namespace Term

variable {g p q s t u x z : Term} {ps ts us : List Term} {low top high k : Nat}
  {above below : Bool}

/-- Whether the lowest bit is a zero. -/
def endsInZero (t : Term) : Bool := (mkExtract 0 0 t).isZero

/-- Whether one of the parts ends in a zero that is not joined to the part below. -/
def hasSeam : List Term → Bool
  | t :: u :: ts => (t.endsInZero && !u.isLit) || hasSeam (u :: ts)
  | _ => false

mutual

/-- Whether slices of slices of a term are slices of the term. `above` says whether a zero may be
taken together with the top of the term, and `below` whether other bits may be taken together with
its bottom. -/
def isComposable (above below : Bool) : Term → Bool
  | concat ts => !(below && hasSeam ts) && areComposable above below ts
  | zeroExtend _ t => !(above && t.beginsWithLit) && isComposable true below t
  | _ => true

def areComposable (above below : Bool) : List Term → Bool
  | [] => true
  | t :: ts => isComposable above (below || !ts.isEmpty) t && areComposable t.endsInZero below ts

end

/-! ## What is needed of a term -/

/-- What composing slices needs of a term: the law itself, that no top slice brings a zero extension
over a literal under the zero above, and that every bottom slice may be opened. -/
structure Composable (above below : Bool) (t : Term) : Prop where
  composes : Composes t
  top : above = true → ∀ {low}, low < t.width →
    (mkExtract (t.width - 1) low t).coversLit = false
  bottom : below = true → ∀ {high}, high < t.width → Opens (mkExtract high 0 t)

def AllComposable (above below : Bool) : List Term → Prop
  | [] => True
  | t :: ts =>
    Composable above (below || !ts.isEmpty) t ∧ AllComposable t.endsInZero below ts

theorem AllComposable.composes : ∀ {ts : List Term} {above : Bool}, AllComposable above below ts →
    ∀ t ∈ ts, Composes t
  | [], _, _ => by simp
  | t :: ts, _, h => List.forall_mem_cons.2 ⟨h.1.composes, AllComposable.composes h.2⟩

theorem coversLit_of_atomic (h : t.isAtomic = true) : t.coversLit = false := by
  cases t with
  | zeroExtend => cases h
  | _ => rfl

theorem mem_crop (h : t.WellFormed) (hp : p ∈ crop low top t) :
    ∃ high, (extract high low t).WellFormed ∧ p = mkExtract high low t := by
  rcases crop_cases h low top with ⟨-, hcrop⟩ | ⟨-, hcrop, hwf⟩
  · rw [hcrop] at hp
    cases hp
  · rw [hcrop] at hp
    exact ⟨_, hwf, List.mem_singleton.1 hp⟩

theorem composable_atomic (h : g.WellFormed) (hn : g.Normal) (hg : g.isAtomic = true) :
    Composable above below g where
  composes := composes_atomic h hn hg
  top _ low hlow := coversLit_of_atomic (isAtomic_mkExtract ⟨h, by omega, by omega⟩ hn hg)
  bottom _ high hhigh := opens_of_flat (isConcat_mkExtract ⟨h, Nat.zero_le _, hhigh⟩ hn hg)

/-- A low slice that is zero ends in a zero. -/
theorem endsInZero_of_isZero (hc : Composes t) (h : (extract high 0 t).WellFormed)
    (hzero : (mkExtract high 0 t).isZero = true) : t.endsInZero = true := by
  have hrep := mkExtract_replaces t h
  have hwidth := hrep.width_eq
  have hwf := hrep.wellFormed
  have hbit := hc (Nat.zero_le high) h.2.2 (Nat.le_refl 0) (Nat.zero_le _)
  rw [width_extract] at hwidth
  rw [eq_zero_of_isZero hzero, hwidth] at hbit hwf
  rw [endsInZero, ← hbit, zero, mkExtract_lit ⟨hwf, Nat.le_refl 0, by simp only [width]; omega⟩]
  simp [isZero]

/-! ## Cropped parts of a composable list -/

theorem lt_of_cropAll (h : cropAll low top ts ≠ []) : low < top ∧ low < totalWidth ts :=
  ⟨Nat.lt_of_not_le fun hle => h (cropAll_of_le hle ts),
    Nat.lt_of_not_le fun hle => h (cropAll_of_totalWidth_le ts hle)⟩

theorem coversLit_of_cropAll (h : Fitting ts) (hts : AllComposable true below ts)
    (htop : totalWidth ts ≤ top) (hcrop : cropAll low top ts = [p]) : p.coversLit = false := by
  rcases ts with _ | ⟨t, ts⟩
  · cases hcrop
  rw [totalWidth_cons] at htop
  have hlow := (lt_of_cropAll (by rw [hcrop]; simp)).2
  have hpos := h.head.1.width_pos
  rw [totalWidth_cons] at hlow
  rw [cropAll, crop_of_width_le (by omega), crop_of_lt (by omega) (Nat.le_refl _),
    List.singleton_append, List.cons.injEq] at hcrop
  rw [← hcrop.1]
  exact hts.1.top rfl (by omega)

/-- The cropped parts of a composable list can be put together and cropped again. -/
theorem cropAll_cases (low top : Nat) : ∀ (ts : List Term) {above : Bool}, Fitting ts →
    AllComposable above below ts → cropAll low top ts = [] ∨
      ∃ ss p, cropAll low top ts = ss ++ [p] ∧ (∀ q ∈ ss, Opens q)
        ∧ ∀ z, ss.getLast? = some z → z.isZero = true → p.coversLit = false
  | [], _, _, _ => .inl rfl
  | t :: ts, above, h, hts => by
    have ht := h.head.1
    rw [cropAll]
    rcases cropAll_cases low top ts h.tail hts.2 with hrest | ⟨ss, p, hrest, hopen, hcover⟩
    · rw [hrest, List.append_nil]
      rcases crop_cases ht (low - totalWidth ts) (top - totalWidth ts) with
        ⟨-, hcrop⟩ | ⟨-, hcrop, -⟩
      · exact .inl hcrop
      · exact .inr ⟨[], _, hcrop, by simp, by simp⟩
    · -- Some bits below are taken, so `t` is cropped from its bottom.
      obtain ⟨hlt, hlow⟩ := lt_of_cropAll (show cropAll low top ts ≠ [] by rw [hrest]; simp)
      have hbelow : (below || !ts.isEmpty) = true := by
        rcases ts with _ | ⟨u, us⟩
        · simp at hlow
        · simp
      rw [Nat.sub_eq_zero_of_le (Nat.le_of_lt hlow), hrest]
      rcases crop_cases ht 0 (top - totalWidth ts) with ⟨-, hcrop⟩ | ⟨hin, hcrop, hwf⟩
      · exact .inr ⟨ss, p, by rw [hcrop]; rfl, hopen, hcover⟩
      · have hq := hts.1.bottom hbelow hwf.2.2
        refine .inr ⟨_ :: ss, p, by rw [hcrop]; rfl, List.forall_mem_cons.2 ⟨hq, hopen⟩, ?_⟩
        intro z hlast hzero
        rcases ss with _ | ⟨s, ss⟩
        · obtain rfl := Option.some.inj hlast
          have hends := endsInZero_of_isZero hts.1.composes hwf hzero
          have hrestc := hts.2
          rw [hends] at hrestc
          exact coversLit_of_cropAll h.tail hrestc (by omega) hrest
        · exact hcover z (by simpa using hlast) hzero

/-- A slice of what the cropped parts of a composable list make is a slice of the list. -/
theorem mkExtract_mkConcat_cropAll {high' low' : Nat} (h : Fitting ts)
    (hts : AllComposable above below ts) (hle : low ≤ high) (hhigh : high < totalWidth ts)
    (hle' : low' ≤ high') (hhigh' : high' ≤ high - low) :
    mkExtract high' low' (mkConcat (cropAll low (high + 1) ts))
      = mkConcat (cropAll (low' + low) (high' + low + 1) ts) := by
  obtain ⟨hfits, hcount⟩ := cropAll_fits ts h low (high + 1)
  have hnested := @cropAll_cropAll low (high + 1) low' (high' + 1) ts h hts.composes
  rw [Nat.min_eq_left (by omega), Nat.add_right_comm] at hnested
  rw [← hnested]
  rcases cropAll_cases low (high + 1) ts h hts with hnil | ⟨ss, p, hcrop, hopen, hcover⟩
  · exact absurd hnil (cropAll_ne_nil h (by omega) (by omega))
  · rw [hcrop] at hfits hcount ⊢
    exact mkExtract_mkConcat hfits hopen hcover hle' (by omega)

/-! ## Zero extensions -/

theorem composable_zero (h : (zero k).WellFormed) : Composable above below (zero k) :=
  composable_atomic h trivial rfl

theorem endsInZero_zero (h : (zero k).WellFormed) : (zero k).endsInZero = true := by
  have hpos := h.width_pos
  rw [endsInZero, zero, mkExtract_lit ⟨h, Nat.le_refl 0, hpos⟩]
  simp [isZero]

theorem composes_zeroExtend (h : (zeroExtend k x).WellFormed) (hn : (zeroExtend k x).Normal)
    (hx : Composable true below x) : Composes (zeroExtend k x) := by
  intro high low high' low' hle hhigh hle' hhigh'
  have hfits := zero_fits h hn
  have hwidth := width_zeroExtend h.2
  have hcount : totalWidth [zero k, x] = k + x.width := by simp
  by_cases hwhole : low = 0 ∧ high + 1 = k + x.width
  · obtain ⟨rfl, hwhole⟩ := hwhole
    rw [show high = (zeroExtend k x).width - 1 by omega, mkExtract_whole h, Nat.add_zero,
      Nat.add_zero]
  · have hlist : AllComposable false below [zero k, x] := by
      refine ⟨composable_zero hfits.head.1, ?_, trivial⟩
      rw [endsInZero_zero hfits.head.1]
      simpa using hx
    rw [mkExtract_zeroExtend_pair ⟨h, hle, hhigh⟩ hn hwhole,
      mkExtract_mkConcat_cropAll hfits hlist hle (by omega) hle' hhigh',
      mkExtract_zeroExtend_pair ⟨h, by omega, by omega⟩ hn (by omega)]

theorem coversLit_mkZeroExtend (hq : q.coversLit = false) (hlit : q.beginsWithLit = false) :
    (mkZeroExtend k q).coversLit = false := by
  fun_cases mkZeroExtend k q with
  | case1 => exact hq
  | case2 => rfl
  | case3 => exact hq
  | case4 => exact hlit

/-- What a zero and a part below it make covers no literal if the part does not. -/
theorem coversLit_mkConcat_zero (h : Fitting [zero k, q]) (hq : q.coversLit = false) :
    (mkConcat [zero k, q]).coversLit = false := by
  have hself := mkConcat_self h.tail.head.2
  rcases hlit : q.beginsWithLit with _ | _
  · rw [mkConcat_zero_cons h (by simp) (by rwa [hself]), hself]
    exact coversLit_mkZeroExtend hq hlit
  · obtain ⟨v, w, u, us, rfl⟩ := eq_concat_of_beginsWithLit h.tail.head.2 hlit
    rw [mkConcat_zero_lit h]
    rfl

/-- A range that reaches the top of parts that begin with a literal begins with a literal. -/
theorem isLit_of_cropAll (h : Fitting (t :: ts)) (ht : t.isLit = true)
    (hlow : low < totalWidth (t :: ts)) (htop : totalWidth (t :: ts) ≤ top)
    (hjoin : joinParts (cropAll low top (t :: ts)) = u :: us) : u.isLit = true := by
  rw [totalWidth_cons] at hlow htop
  have hpos := h.head.1.width_pos
  have hfits := (cropAll_fits _ h low top).1
  rw [cropAll, crop_of_width_le (by omega), crop_of_lt (by omega) (Nat.le_refl _),
    List.singleton_append] at hfits hjoin
  have hlit : (mkExtract (t.width - 1) (low - totalWidth ts) t).isLit = true := by
    cases t with
    | lit v w => exact isLit_mkExtract _ _ v w
    | _ => cases ht
  exact (isLit_of_joinParts_cons hfits (isConcat_of_isLit hlit) hjoin).trans hlit

/-- With zeros above it, a term that opens still does. -/
theorem opens_mkConcat_zero (h : Fitting [zero k, x]) (ho : Opens x) :
    Opens (mkConcat [zero k, x]) := by
  obtain ⟨hx, hn⟩ := h.tail.head
  rcases hcat : (mkConcat [zero k, x]).isConcat with _ | _
  · exact opens_of_flat hcat
  rcases hlit : x.beginsWithLit with _ | _
  · have hself := mkConcat_self hn
    have hk : k ≠ 0 := Nat.ne_of_gt h.head.1.width_pos
    rw [mkConcat_zero_cons h (by simp) (by rwa [hself]), isConcat_mkZeroExtend hk] at hcat
    cases hcat
  obtain ⟨v, w, u, us, rfl⟩ := eq_concat_of_beginsWithLit hn hlit
  obtain ⟨hwf, hnormal, -⟩ := mkConcat_fits h (by simp)
  have hjoin := flatten_mkConcat h (by simp) (not_leadsZero_of_isConcat h hcat)
  rw [mkConcat_zero_lit h] at hwf hnormal hjoin ⊢
  refine opens_concat hwf hnormal fun low top hlead => ?_
  have hopen : ∀ p ∈ [zero k, concat (lit v w :: u :: us)], Opens p := by
    simpa using ⟨opens_of_flat rfl, ho⟩
  rw [flatten] at hjoin
  rw [hjoin, leadsZero_congr (joinParts_cropAll_joinParts h hopen), cropAll_pair] at hlead
  have hfits := (cropAll_fits _ h low top).1
  rw [cropAll_pair] at hfits
  rcases crop_cases h.head.1 (low - (concat (lit v w :: u :: us)).width)
    (top - (concat (lit v w :: u :: us)).width) with ⟨-, hcrop⟩ | ⟨hin, hcrop, -⟩
  · rw [hcrop] at hlead
    exact not_leadsZero_crop hx hn hlead
  rw [hcrop, List.singleton_append] at hlead hfits
  obtain ⟨-, y, ys, hy, hnlit⟩ := leadsZero_cons hfits hlead
  -- The range reaches over the literal, to which the zeros are joined.
  have hylit : y.isLit = true := by
    rw [ho low top] at hy
    have hcount := totalWidth_flatten hx
    rw [flatten] at hy hcount
    refine isLit_of_cropAll (flatten_fits hx hn) rfl ?_ (by omega) hy
    exact (lt_of_cropAll fun hnil => by rw [hnil] at hy; cases hy).2
  rcases hnlit with hnlit | hnlit
  · rw [hylit] at hnlit
    cases hnlit
  · exact not_leadsZero_crop hx hn hnlit

theorem composable_zeroExtend (h : (zeroExtend k x).WellFormed) (hn : (zeroExtend k x).Normal)
    (hx : Composable true below x) (hlit : above = true → x.beginsWithLit = false) :
    Composable above below (zeroExtend k x) where
  composes := composes_zeroExtend h hn hx
  top habove low hlow := by
    have hwidth := width_zeroExtend h.2
    have hfits := zero_fits h hn
    rcases Nat.eq_zero_or_pos low with rfl | hlowpos
    · rw [mkExtract_whole h]
      exact hlit habove
    have hcrop := (cropAll_fits _ hfits low (k + x.width)).1
    rw [mkExtract_zeroExtend_pair ⟨h, by omega, by omega⟩ hn (by omega),
      show (zeroExtend k x).width - 1 + 1 = k + x.width by omega]
    rw [cropAll_pair] at hcrop ⊢
    by_cases hout : x.width ≤ low
    · have hlt := h.2
      rw [@crop_of_le x low (k + x.width) (by omega), crop_zero (by omega) (by omega)]
      rfl
    · rw [Nat.sub_eq_zero_of_le (by omega), crop_whole hfits.head.1 (by rw [width_zero]; omega),
        crop_of_width_le (by omega), crop_of_lt (by omega) (Nat.le_refl _)] at hcrop ⊢
      exact coversLit_mkConcat_zero hcrop (hx.top rfl (by omega))
  bottom hbelow high hhigh := by
    have hwidth := width_zeroExtend h.2
    have hlt := h.2
    have hfits := zero_fits h hn
    by_cases hin : high < x.width
    · rw [mkExtract_zeroExtend_low h hn (Nat.zero_le _) hin]
      exact hx.bottom hbelow hin
    by_cases hwhole : high + 1 = k + x.width
    · rw [show high = (zeroExtend k x).width - 1 by omega, mkExtract_whole h]
      exact opens_of_flat rfl
    have hcrop := (cropAll_fits _ hfits 0 (high + 1)).1
    rw [mkExtract_zeroExtend_pair ⟨h, Nat.zero_le _, hhigh⟩ hn (by omega)]
    rw [cropAll_pair, Nat.zero_sub, crop_whole h.1 (by omega), crop_zero (by omega) (by omega)]
      at hcrop ⊢
    have hopen := hx.bottom hbelow (Nat.sub_lt h.1.width_pos Nat.one_pos)
    rw [mkExtract_whole h.1] at hopen
    exact opens_mkConcat_zero hcrop hopen

/-! ## Concatenations -/

theorem hasSeam_cons (h : hasSeam ts = true) : hasSeam (t :: ts) = true := by
  rcases ts with _ | ⟨u, ts⟩
  · cases h
  · simp [hasSeam, h]

/-- A range that begins with a zero, and is not zero, takes no part of the first part or zeros from
its bottom, above a part that is no literal or more zeros. -/
theorem leadsZero_cropAll_cons (h : Fitting (t :: ts))
    (hlead : LeadsZero (cropAll low top (t :: ts))) :
    crop 0 (top - totalWidth ts) t = [] ∧ LeadsZero (cropAll low top ts) ∨
      ∃ high, (extract high 0 t).WellFormed ∧ totalWidth ts < top
        ∧ crop 0 (top - totalWidth ts) t = [mkExtract high 0 t] ∧ (mkExtract high 0 t).isZero = true
        ∧ (LeadsZero (cropAll low top ts) ∨ ∃ u us, ts = u :: us ∧ u.isLit = false) := by
  have hfits := (cropAll_fits _ h low top).1
  rw [cropAll] at hlead hfits
  by_cases hlow : totalWidth ts ≤ low
  · rw [cropAll_of_totalWidth_le ts hlow, List.append_nil] at hlead
    exact absurd hlead (not_leadsZero_crop h.head.1 h.head.2)
  rw [Nat.sub_eq_zero_of_le (by omega)] at hlead hfits
  rcases crop_cases h.head.1 0 (top - totalWidth ts) with ⟨-, hcrop⟩ | ⟨hin, hcrop, hwf⟩
  · rw [hcrop] at hlead
    exact .inl ⟨hcrop, hlead⟩
  rw [hcrop, List.singleton_append] at hlead hfits
  obtain ⟨hzero, u, us, hjoin, hu | hrest⟩ := leadsZero_cons hfits hlead
  · rcases ts with _ | ⟨t', ts⟩
    · exact absurd (Nat.zero_le _) hlow
    have hlit : t'.isLit = false := by
      rcases hlit : t'.isLit with _ | _
      · rfl
      · rw [isLit_of_cropAll h.tail hlit (by omega) (by omega) hjoin] at hu
        exact hu
    exact .inr ⟨_, hwf, by omega, hcrop, hzero, .inr ⟨t', ts, rfl, hlit⟩⟩
  · exact .inr ⟨_, hwf, by omega, hcrop, hzero, .inl hrest⟩

/-- A range that begins with a zero, and is not zero, begins at a seam. -/
theorem hasSeam_of_leadsZero : ∀ (ts : List Term), Fitting ts → (∀ t ∈ ts, Composes t) →
    LeadsZero (cropAll low top ts) → hasSeam ts = true
  | [], _, _, hlead => absurd hlead not_leadsZero_nil
  | t :: ts, h, hc, hlead => by
    have ih := hasSeam_of_leadsZero ts h.tail fun u hu => hc u (List.mem_cons_of_mem _ hu)
    rcases leadsZero_cropAll_cons h hlead with
      ⟨-, hrest⟩ | ⟨high, hwf, -, -, hzero, hrest | ⟨u, us, rfl, hlit⟩⟩
    · exact hasSeam_cons (ih hrest)
    · exact hasSeam_cons (ih hrest)
    · have hends := endsInZero_of_isZero (hc t List.mem_cons_self) hwf hzero
      simp [hasSeam, hends, hlit]

theorem coversLit_mkConcat_cons (h : Fitting (t :: ts)) (hne : ts ≠ []) (ht : t.isConcat = false)
    (hzero : t.isZero = false) : (mkConcat (t :: ts)).coversLit = false := by
  rcases joinParts_cons_cases h ht with
    ⟨hnil, -⟩ | ⟨u, us, -, hfits, ⟨-, hcons⟩ | ⟨s, hs, hcons⟩⟩
  · exact absurd hnil hne
  · rw [mkConcat_of_not_zero hcons hzero]
    rfl
  rcases us with _ | ⟨v, us⟩
  · simp only [mkConcat, hcons]
    exact coversLit_of_atomic (join?_atomic h.head.2 hs)
  · have hs0 : s.isZero = false := by
      rcases hs0 : s.isZero with _ | _
      · rfl
      · rw [(join?_isZero hfits.left hs hs0).1] at hzero
        exact hzero
    rw [mkConcat_of_not_zero hcons hs0]
    rfl

theorem AllComposable.opens : ∀ {ts : List Term} {above : Bool}, AllWellFormed ts →
    AllComposable above true ts → ∀ p ∈ cropAll 0 top ts, Opens p
  | [], _, _, _ => by simp [cropAll]
  | t :: ts, _, hwf, h => by
    rw [cropAll, Nat.zero_sub]
    refine List.forall_mem_append.2 ⟨fun p hp => ?_, AllComposable.opens hwf.2 h.2⟩
    obtain ⟨high, hin, rfl⟩ := mem_crop hwf.1 hp
    exact h.1.bottom (Bool.true_or _) hin.2.2

theorem composable_concat (h : (concat ts).WellFormed) (hn : (concat ts).Normal)
    (hts : AllComposable above below ts) (hseam : below = true → hasSeam ts = false) :
    Composable above below (concat ts) where
  composes high low high' low' hle hhigh hle' hhigh' := by
    have hfits := Fitting.of_concat h hn
    have hwidth := width_concat ts
    rw [mkExtract_concat ⟨h, hle, hhigh⟩ hn,
      mkExtract_mkConcat_cropAll hfits hts hle (by omega) hle' hhigh',
      mkExtract_concat ⟨h, by omega, by omega⟩ hn]
  top habove low hlow := by
    have hwidth := width_concat ts
    rcases ts with _ | ⟨t, ts⟩
    · exact absurd rfl h.1
    have hfits := Fitting.of_concat h hn
    rw [totalWidth_cons] at hwidth
    have hcrop := (cropAll_fits _ hfits low (t.width + totalWidth ts)).1
    rw [mkExtract_concat ⟨h, by omega, by omega⟩ hn,
      show (concat (t :: ts)).width - 1 + 1 = t.width + totalWidth ts by omega]
    rw [cropAll, Nat.add_sub_cancel] at hcrop ⊢
    by_cases hin : totalWidth ts ≤ low
    · have hwf : (extract (t.width - 1) (low - totalWidth ts) t).WellFormed :=
        ⟨hfits.head.1, by omega, by omega⟩
      rw [cropAll_of_totalWidth_le ts hin, List.append_nil, crop_of_lt (by omega) (Nat.le_refl _),
        mkConcat_self (mkExtract_normal t hwf.regular hfits.head.2)]
      exact hts.1.top habove (by omega)
    · rw [Nat.sub_eq_zero_of_le (by omega), crop_whole hfits.head.1 (Nat.le_refl _)] at hcrop ⊢
      exact coversLit_mkConcat_cons hcrop (cropAll_ne_nil hfits.tail (by omega) (by omega))
        (hn.2.flat t List.mem_cons_self) (hn.2.head t rfl)
  bottom hbelow high hhigh := by
    have hfits := Fitting.of_concat h hn
    have hwidth := width_concat ts
    have hps := (cropAll_fits ts hfits 0 (high + 1)).1
    have hne := cropAll_ne_nil hfits (Nat.succ_pos high) (by omega)
    rw [mkExtract_concat ⟨h, Nat.zero_le _, hhigh⟩ hn]
    obtain ⟨hcwf, hcn, -⟩ := mkConcat_fits hps hne
    rcases hcat : (mkConcat (cropAll 0 (high + 1) ts)).isConcat with _ | _
    · exact opens_of_flat hcat
    have hjoin := flatten_mkConcat hps hne (not_leadsZero_of_isConcat hps hcat)
    cases hmk : mkConcat (cropAll 0 (high + 1) ts) with
    | concat ms =>
      rw [hmk] at hcwf hcn hjoin
      refine opens_concat hcwf hcn fun low top hlead => ?_
      rw [hbelow] at hts
      rw [flatten] at hjoin
      rw [hjoin, leadsZero_congr (joinParts_cropAll_joinParts hps (hts.opens h.2.1)),
        cropAll_cropAll ts hfits hts.composes] at hlead
      have hfound := hasSeam_of_leadsZero ts hfits hts.composes hlead
      rw [hseam hbelow] at hfound
      cases hfound
    | _ =>
      rw [hmk] at hcat
      cases hcat

/-! ## Composable terms -/

mutual

theorem composable_of_isComposable : ∀ (t : Term) {above below : Bool}, t.WellFormed → t.Normal →
    isComposable above below t = true → Composable above below t
  | concat ts, above, below, h, hn, hc => by
    rw [isComposable, Bool.and_eq_true] at hc
    refine composable_concat h hn (allComposable_of_areComposable ts h.2.1 hn.1 hc.2) ?_
    rintro rfl
    simpa using hc.1
  | zeroExtend k x, above, below, h, hn, hc => by
    rw [isComposable, Bool.and_eq_true] at hc
    refine composable_zeroExtend h hn (composable_of_isComposable x h.1 hn.1 hc.2) ?_
    rintro rfl
    simpa using hc.1
  | lit _ _, _, _, h, hn, _ | sym _ _, _, _, h, hn, _ | unary _ _, _, _, h, hn, _
  | binary _ _ _, _, _, h, hn, _ | compare _ _ _, _, _, h, hn, _ | extract _ _ _, _, _, h, hn, _
  | signExtend _ _, _, _, h, hn, _ | apply _ _ _, _, _, h, hn, _ | select _ _ _, _, _, h, hn, _ =>
    composable_atomic h hn rfl

theorem allComposable_of_areComposable : ∀ (ts : List Term) {above below : Bool},
    AllWellFormed ts → AllNormal ts → areComposable above below ts = true →
      AllComposable above below ts
  | [], _, _, _, _, _ => trivial
  | t :: ts, above, below, h, hn, hc => by
    rw [areComposable, Bool.and_eq_true] at hc
    exact ⟨composable_of_isComposable t h.1 hn.1 hc.1,
      allComposable_of_areComposable ts h.2 hn.2 hc.2⟩

end

end Term

end SymWord
