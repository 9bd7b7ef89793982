import SymWord.Proofs.RegularValues

/-!
# Contiguous slices

A term that is neither a concatenation nor a zero extension can be cut at any positions and put
together again. Each of its slices is a literal, or an extraction from one term that no extraction
goes through (`mkExtract_eq_slice`). Two slices that meet are joined to one (`join?_neighbours`), so
the parts pushed so far are always the range of bits from the top down to the last cut, and at the
bottom the range is the whole term (`foldl_pushPart_slicesAt`).

It does not matter what was pushed before: joining is associative (`join?_assoc`).
-/

namespace SymWord

namespace Term

variable {a b c d e g t x : Term} {ts stack : List Term} {high low k : Nat}

/-- A term that the extraction of a bit does not take apart. -/
def isAtomic : Term → Bool
  | concat _ | zeroExtend _ _ => false
  | _ => true

theorem isAtomic_iff : t.isAtomic = true ↔ t.isConcat = false ∧ t.isZeroExtend = false := by
  cases t <;> simp [isAtomic, isConcat, isZeroExtend]

/-! ## Neighbouring slices -/

theorem mkExtract_lit {v w : Nat} (h : (extract high low (lit v w)).WellFormed) :
    mkExtract high low (lit v w) = lit ((v >>> low) % 2 ^ (high - low + 1)) (high - low + 1) := by
  rw [mkExtract.eq_def]
  split
  · rename_i hwhole
    obtain ⟨rfl, hwhole⟩ := hwhole
    rw [width] at hwhole
    rw [Nat.sub_zero, hwhole, Nat.shiftRight_zero, Nat.mod_eq_of_lt h.1.1]
  · simp only [const, Word.truncate_eq]

/-- A term that is taken apart nowhere is a range of bits of a term that no extraction goes
through. -/
theorem mkExtract_eq_slice (h : g.WellFormed) (hn : g.Normal) (hg : g.isAtomic = true)
    (hlit : g.isLit = false) :
    ∃ x offset, x.isSolid = true ∧ g.width + offset ≤ x.width ∧
      ∀ high low, low ≤ high → high < g.width →
        mkExtract high low g = slice (high + offset) (low + offset) x := by
  cases g with
  | lit => cases hlit
  | concat => cases hg
  | zeroExtend => cases hg
  | extract hi lo x =>
    have hw := width_extract hi lo x
    have hle := h.2.1
    have hlt := h.2.2
    refine ⟨x, lo, hn.2.1, by omega, fun high low hlow hhigh => ?_⟩
    rw [mkExtract.eq_def]
    split
    · rename_i hwhole
      obtain ⟨rfl, hwhole⟩ := hwhole
      rw [hw] at hwhole
      rw [Nat.zero_add, show high + lo = hi by omega, slice, if_neg hn.2.2]
    · exact mkExtract_of_solid hn.2.1
  | _ => exact ⟨_, 0, rfl, Nat.le_refl _, fun _ _ _ _ => mkExtract_of_solid rfl⟩

theorem join?_slices (hk : k < high) (hhigh : high < x.width) :
    join? (slice high (k + 1) x) (slice k low x) = some (slice high low x) := by
  have hupper : slice high (k + 1) x = extract high (k + 1) x := if_neg (by simp)
  have hlower : slice k low x = extract k low x := if_neg (by omega)
  rw [hupper, hlower, join?, if_pos ⟨rfl, rfl⟩]

/-- Two ranges of bits that meet are joined to one. -/
theorem join?_neighbours (h : g.WellFormed) (hn : g.Normal) (hg : g.isAtomic = true)
    (hlow : low ≤ k) (hk : k < high) (hhigh : high < g.width) :
    join? (mkExtract high (k + 1) g) (mkExtract k low g) = some (mkExtract high low g) := by
  cases hlit : g.isLit with
  | false =>
    obtain ⟨x, offset, -, hw, hslice⟩ := mkExtract_eq_slice h hn hg hlit
    rw [hslice _ _ (by omega) hhigh, hslice _ _ hlow (by omega), hslice _ _ (by omega) hhigh,
      Nat.add_right_comm]
    exact join?_slices (by omega) (by omega)
  | true =>
    cases g with
    | lit v w =>
      simp only [width] at hhigh
      have hn : (high - (k + 1) + 1) + (k - low + 1) = high - low + 1 := by omega
      have hslices := Word.slice_or_slice v low (high - (k + 1) + 1) (k - low + 1)
      rw [show low + (k - low + 1) = k + 1 by omega, hn] at hslices
      rw [mkExtract_lit ⟨h, by omega, hhigh⟩, mkExtract_lit ⟨h, hlow, by simp only [width]; omega⟩,
        mkExtract_lit ⟨h, by omega, hhigh⟩, join?, hslices, hn, const,
        Word.truncate_of_lt (Nat.mod_lt _ (Nat.two_pow_pos _))]
    | _ => cases hlit

/-! ## Pushing the bits of one segment -/

/-- It does not matter in which order three parts are joined. -/
theorem join?_assoc (ha : a.WellFormed) (hb : b.WellFormed) (hc : c.WellFormed)
    (he : join? a b = some e) (hd : join? b c = some d) :
    ∃ f, join? e c = some f ∧ join? a d = some f := by
  revert he hd
  fun_cases join? a b with
  | case1 va wa vb wb =>
    cases c with
    | lit vc wc =>
      rintro ⟨⟩ ⟨⟩
      have hab := Word.shiftLeft_or_lt ha.1 hb.1
      have hbc := Word.shiftLeft_or_lt hb.1 hc.1
      simp only [join?, const, Word.truncate_of_lt hab, Word.truncate_of_lt hbc,
        Option.some.injEq, exists_eq_left']
      rw [Nat.shiftLeft_or_distrib, ← Nat.shiftLeft_add, Nat.or_assoc, Nat.add_assoc]
    | _ => rintro _ ⟨⟩
  | case2 high low x high' low' x' hmeet =>
    obtain ⟨rfl, hmeet⟩ := hmeet
    cases c with
    | extract high'' low'' z =>
      rintro ⟨⟩ hd
      simp only [join?] at hd
      split at hd
      · rename_i hmeet'
        obtain ⟨rfl, hmeet'⟩ := hmeet'
        cases hd
        have hle := ha.2.1
        have hhigh := ha.2.2
        -- The upper two do not reach the bottom, and the lower two do not reach the top.
        have hupper : slice high low' x = extract high low' x := if_neg (by omega)
        have hlower : slice high' low'' x = extract high' low'' x := if_neg (by omega)
        rw [hupper, hlower]
        refine ⟨slice high low'' x, ?_, ?_⟩
        · rw [join?, if_pos ⟨rfl, hmeet'⟩]
        · rw [join?, if_pos ⟨rfl, hmeet⟩]
      · cases hd
    | _ => rintro _ ⟨⟩
  | case3 | case4 => rintro ⟨⟩

/-- Two parts that are joined may be pushed as one. -/
theorem pushPart_pushPart (hstack : AllWellFormed stack) (hb : b.WellFormed) (hn : b.Normal)
    (hc : c.WellFormed) (hd : join? b c = some d) :
    pushPart (pushPart stack b) c = pushPart stack d := by
  cases stack with
  | nil => simp only [pushPart, hd]
  | cons last rest =>
    cases he : join? last b with
    | none => simp only [pushPart, he, hd, join?_apart hd hn he]
    | some e =>
      obtain ⟨f, hf, hf'⟩ := join?_assoc hstack.1 hb hc he hd
      simp only [pushPart, he, hf, hf']

theorem mkExtract_whole (h : t.WellFormed) : mkExtract (t.width - 1) 0 t = t := by
  have hpos := h.width_pos
  rw [mkExtract.eq_def, if_pos ⟨rfl, by omega⟩]

/-- The ranges of bits between neighbouring positions of a list, the highest position first. -/
def slicesAt (t : Term) : List Nat → List Term
  | high :: low :: cuts => mkExtract (high - 1) low t :: slicesAt t (low :: cuts)
  | _ => []

/-- Positions at which `width` bits are cut, from the top down to the bottom. -/
structure Cuts (width : Nat) (cuts : List Nat) : Prop where
  top : cuts.head? = some width
  descending : cuts.Pairwise (· > ·)
  bottom : cuts.getLast? = some 0

section Segment

variable (h : g.WellFormed) (hn : g.Normal) (hg : g.isAtomic = true)
  (hstack : AllWellFormed stack)

include h hn hg hstack

/-- The slices below position `k` complete the range above it. -/
theorem foldl_pushPart_below : ∀ (cuts : List Nat) {k : Nat}, (k :: cuts).Pairwise (· > ·) →
    (k :: cuts).getLast? = some 0 → k < g.width →
      (slicesAt g (k :: cuts)).foldl pushPart (pushPart stack (mkExtract (g.width - 1) k g))
        = pushPart stack g
  | [], k, _, hbottom, _ => by
    obtain rfl : k = 0 := by simpa using hbottom
    rw [mkExtract_whole h]
    rfl
  | low :: cuts, k, hdesc, hbottom, hk => by
    obtain ⟨hhead, hrest⟩ := List.pairwise_cons.1 hdesc
    have hlow : low < k := hhead low List.mem_cons_self
    have hupper : (extract (g.width - 1) k g).WellFormed := ⟨h, by omega, by omega⟩
    have hlower : (extract (k - 1) low g).WellFormed := ⟨h, by omega, by omega⟩
    have hup := mkExtract_replaces g hupper
    have hdown := mkExtract_replaces g hlower
    have hjoin := join?_neighbours h hn hg (show low ≤ k - 1 by omega)
      (show k - 1 < g.width - 1 by omega) (by omega)
    rw [Nat.sub_add_cancel (by omega)] at hjoin
    rw [slicesAt, List.foldl_cons, pushPart_pushPart hstack hup.wellFormed
      (mkExtract_normal g hupper.regular hn) hdown.wellFormed hjoin]
    exact foldl_pushPart_below cuts hrest (by simpa using hbottom) (by omega)

theorem foldl_pushPart_slicesAt {cuts : List Nat} (hcuts : Cuts g.width cuts) :
    (slicesAt g cuts).foldl pushPart stack = pushPart stack g := by
  have hpos := h.width_pos
  obtain ⟨htop, hdesc, hbottom⟩ := hcuts
  rcases cuts with _ | ⟨k, _ | ⟨low, cuts⟩⟩
  · cases htop
  · simp only [List.head?_cons, List.getLast?_singleton, Option.some.injEq] at htop hbottom
    omega
  · obtain rfl : k = g.width := by simpa using htop
    obtain ⟨hhead, hrest⟩ := List.pairwise_cons.1 hdesc
    rw [slicesAt, List.foldl_cons]
    exact foldl_pushPart_below h hn hg hstack cuts hrest (by simpa using hbottom)
      (hhead low List.mem_cons_self)

end Segment

/-! ## The whole term -/

theorem isAtomic_slice (hsolid : x.isSolid = true) : (slice high low x).isAtomic = true := by
  fun_cases slice high low x with
  | case1 => cases x <;> first | rfl | cases hsolid
  | case2 => rfl

theorem isAtomic_mkExtract (h : (extract high low g).WellFormed) (hn : g.Normal)
    (hg : g.isAtomic = true) : (mkExtract high low g).isAtomic = true := by
  rcases hlit : g.isLit with _ | _
  · obtain ⟨x, offset, hsolid, -, hslice⟩ := mkExtract_eq_slice h.1 hn hg hlit
    rw [hslice high low h.2.1 h.2.2]
    exact isAtomic_slice hsolid
  · rcases g with ⟨v, w⟩ | _
    · rw [mkExtract_lit h]
      rfl
    all_goals cases hlit

theorem isConcat_mkExtract (h : (extract high low g).WellFormed) (hn : g.Normal)
    (hg : g.isAtomic = true) : (mkExtract high low g).isConcat = false :=
  (isAtomic_iff.1 (isAtomic_mkExtract h hn hg)).1

theorem slicesAt_flat (h : g.WellFormed) (hn : g.Normal) (hg : g.isAtomic = true) :
    ∀ (cuts : List Nat), cuts.Pairwise (· > ·) → (∀ k ∈ cuts, k ≤ g.width) →
      ∀ s ∈ slicesAt g cuts, s.isConcat = false
  | [], _, _ | [_], _, _ => by simp [slicesAt]
  | k :: low :: cuts, hdesc, hle => by
    obtain ⟨hhead, hrest⟩ := List.pairwise_cons.1 hdesc
    have hlow := hhead low List.mem_cons_self
    have hk := hle k List.mem_cons_self
    intro s hs
    rcases List.mem_cons.1 hs with rfl | hs
    · exact isConcat_mkExtract ⟨h, by omega, by omega⟩ hn hg
    · exact slicesAt_flat h hn hg (low :: cuts) hrest
        (fun i hi => hle i (List.mem_cons_of_mem _ hi)) s hs

theorem Cuts.le {width : Nat} {cuts : List Nat} (h : Cuts width cuts) : ∀ k ∈ cuts, k ≤ width := by
  obtain ⟨rest, rfl⟩ := List.head?_eq_some_iff.1 h.top
  intro k hk
  rcases List.mem_cons.1 hk with rfl | hk
  · exact Nat.le_refl _
  · exact Nat.le_of_lt ((List.pairwise_cons.1 h.descending).1 k hk)

theorem mkConcat_slicesAt (h : g.WellFormed) (hn : g.Normal) (hg : g.isAtomic = true)
    {cuts : List Nat} (hcuts : Cuts g.width cuts) : mkConcat (slicesAt g cuts) = g := by
  have hflat := slicesAt_flat h hn hg cuts hcuts.descending hcuts.le
  have hjoin : joinParts (slicesAt g cuts) = [g] := by
    have hnil : AllWellFormed [] := trivial
    rw [joinParts, flatMap_flatten_of_flat hflat,
      foldl_pushPart_slicesAt h hn hg hnil hcuts]
    rfl
  rw [mkConcat, hjoin]

end Term

namespace Value

variable {v : Value}

theorem half_of_even (heven : v.width % 2 = 0) : v.half = .ok (v.width / 2) := if_pos heven

theorem upperHalf_of_even (h : v.term.WellFormed) (heven : v.width % 2 = 0) :
    v.upperHalf = .ok ⟨.mkExtract (v.width - 1) (v.width / 2) v.term⟩ := by
  have hpos : 0 < v.width := h.width_pos
  rw [upperHalf_eq h.regular, half_of_even heven]
  exact extract_eq h.regular (by omega) (by omega)

theorem lowerHalf_of_even (h : v.term.WellFormed) (heven : v.width % 2 = 0) :
    v.lowerHalf = .ok ⟨.mkExtract (v.width / 2 - 1) 0 v.term⟩ := by
  have hpos : 0 < v.width := h.width_pos
  rw [lowerHalf_eq h.regular, half_of_even heven]
  exact extract_eq h.regular (by omega) (by omega)

end Value

namespace Term

theorem regular_halves (h : t.Regular) (heven : t.width % 2 = 0) :
    Regular (concat [mkExtract (t.width - 1) (t.width / 2) t,
      mkExtract (t.width / 2 - 1) 0 t]) := by
  obtain ⟨hpos, hlt⟩ := h.valid
  have hcut : (extract (t.width - 1) (t.width / 2) t).Regular
      ∧ (extract (t.width / 2 - 1) 0 t).Regular :=
    ⟨⟨h, by omega, by omega⟩, ⟨h, by omega, by omega⟩⟩
  have hupper := mkExtract_fills t hcut.1
  have hlower := mkExtract_fills t hcut.2
  refine ⟨by simp, ⟨hupper.regular, hlower.regular, trivial⟩, ?_⟩
  rw [totalWidth_cons, totalWidth_cons, totalWidth_nil, hupper.width_eq, hlower.width_eq,
    width_extract, width_extract]
  omega

/-- A term in normal form that is neither a concatenation nor a zero extension is put together again
from its slices, wherever it is cut, and so is a value from its two halves. -/
theorem mkConcat_slices_eq {t : Term} (h : t.WellFormed) (hn : t.normalize = t)
    (hatomic : t.isAtomic = true) :
    (∀ cuts, Cuts t.width cuts → mkConcat (slicesAt t cuts) = t)
      ∧ (t.width % 2 = 0 → (do
        let upper ← Value.upperHalf ⟨t⟩
        let lower ← Value.lowerHalf ⟨t⟩
        Value.concat [upper, lower]) = .ok ⟨t⟩) := by
  have hnormal : t.Normal := hn ▸ normalize_normal t h
  have hpos := h.width_pos
  refine ⟨fun cuts hcuts => mkConcat_slicesAt h hnormal hatomic hcuts, fun heven => ?_⟩
  have hcuts : Cuts t.width [t.width, t.width / 2, 0] := by
    have hhalf : 0 < t.width / 2 := by omega
    have htop : t.width / 2 < t.width := by omega
    exact ⟨rfl, by simp [hhalf, htop, hpos], rfl⟩
  have hhalves := mkConcat_slicesAt h hnormal hatomic hcuts
  rw [Value.upperHalf_of_even (v := ⟨t⟩) h heven, Value.lowerHalf_of_even (v := ⟨t⟩) h heven]
  have hrun := @Value.concat_eq [⟨_⟩, ⟨_⟩] (regular_halves h.regular heven)
  exact hrun.trans (congrArg (fun u => Except.ok (Value.mk u)) hhalves)

/-- Bits 12 down to 3 of a symbol in three slices and in two halves. -/
theorem mkConcat_slices_eq_extract :
    let t := extract 12 3 (sym "x" 16)
    mkConcat (slicesAt t [10, 7, 6, 0]) = t ∧ (do
      let upper ← Value.upperHalf ⟨t⟩
      let lower ← Value.lowerHalf ⟨t⟩
      Value.concat [upper, lower]) = .ok ⟨t⟩ := by
  intro t
  obtain ⟨hcuts, hhalves⟩ := mkConcat_slices_eq (t := t) (by decide) (by rfl) (by rfl)
  exact ⟨hcuts _ ⟨by decide, by decide, by decide⟩, hhalves (by decide)⟩

end Term

end SymWord
