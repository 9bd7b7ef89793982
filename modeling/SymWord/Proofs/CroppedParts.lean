import SymWord.Proofs.JoinedParts

/-!
# Ranges of bits of a list of parts

`crop` takes the bits from one position up to another, the second not included, so that a range may
be empty and a list of parts is cropped part by part (`cropAll_append`). The extraction from a
concatenation is the concatenation of the cropped parts (`mkExtract_concat`).

Cropping and joining go together: a part that was joined from two is cropped as the two are
(`joinParts_crop_join`), and so a list of parts may be joined before it is cropped
(`joinParts_cropAll_flat`).
-/

namespace SymWord

namespace Term

variable {g p q s t u x : Term} {ps qs ss ts us : List Term}
  {low top low' top' high high' k : Nat}

/-- The bits of a term from `low` up to `top`, the bit `top` not included: one part, or none. -/
def crop (low top : Nat) (t : Term) : List Term :=
  if low < min top t.width then [mkExtract (min top t.width - 1) low t] else []

/-- The same bits of a list of parts. -/
def cropAll (low top : Nat) : List Term → List Term
  | [] => []
  | t :: ts => crop (low - totalWidth ts) (top - totalWidth ts) t ++ cropAll low top ts

/-! ## Which bits are taken -/

theorem crop_of_le (h : min top t.width ≤ low) : crop low top t = [] :=
  if_neg (Nat.not_lt.2 h)

theorem crop_of_lt (h : low < top) (htop : top ≤ t.width) :
    crop low top t = [mkExtract (top - 1) low t] := by
  rw [crop, Nat.min_eq_left htop, if_pos h]

theorem crop_min : crop low (min top t.width) t = crop low top t := by
  rw [crop, Nat.min_assoc, Nat.min_self, crop]

theorem crop_of_width_le (h : t.width ≤ top) : crop low top t = crop low t.width t := by
  rw [← crop_min, Nat.min_eq_right h]

theorem crop_whole (h : t.WellFormed) (htop : t.width ≤ top) : crop 0 top t = [t] := by
  rw [crop_of_width_le htop, crop_of_lt h.width_pos (Nat.le_refl _), mkExtract_whole h]

theorem crop_cases (h : t.WellFormed) (low top : Nat) :
    min top t.width ≤ low ∧ crop low top t = [] ∨
      low < min top t.width ∧ crop low top t = [mkExtract (min top t.width - 1) low t]
        ∧ (extract (min top t.width - 1) low t).WellFormed := by
  by_cases hlow : low < min top t.width
  · exact .inr ⟨hlow, if_pos hlow, h, by omega, by omega⟩
  · exact .inl ⟨by omega, if_neg hlow⟩

theorem crop_fits (h : t.WellFormed) (hn : t.Normal) (low top : Nat) :
    Fitting (crop low top t) ∧ totalWidth (crop low top t) = min top t.width - low := by
  rcases crop_cases h low top with ⟨hle, hcrop⟩ | ⟨hlt, hcrop, hwf⟩
  · rw [hcrop]
    exact ⟨⟨trivial, trivial, by decide⟩, by rw [totalWidth_nil]; omega⟩
  · have hrep := mkExtract_replaces t hwf
    rw [hcrop]
    refine ⟨Fitting.singleton hrep.wellFormed (mkExtract_normal t hwf.regular hn), ?_⟩
    rw [totalWidth_cons, totalWidth_nil, hrep.width_eq, width_extract]
    omega

theorem cropAll_singleton : cropAll low top [t] = crop low top t := by
  simp [cropAll]

theorem cropAll_pair :
    cropAll low top [u, t] = crop (low - t.width) (top - t.width) u ++ crop low top t := by
  simp [cropAll]

theorem cropAll_append (ss : List Term) :
    cropAll low top (ss ++ ts)
      = cropAll (low - totalWidth ts) (top - totalWidth ts) ss ++ cropAll low top ts := by
  induction ss with
  | nil => rfl
  | cons s ss ih =>
    rw [List.cons_append, cropAll, ih, cropAll, List.append_assoc, totalWidth_append, Nat.sub_sub,
      Nat.sub_sub, Nat.add_comm (totalWidth ts)]

theorem cropAll_of_le (h : top ≤ low) (ts : List Term) : cropAll low top ts = [] := by
  induction ts with
  | nil => rfl
  | cons t ts ih => rw [cropAll, ih, crop_of_le (by omega), List.append_nil]

theorem cropAll_of_totalWidth_le : ∀ (ts : List Term), totalWidth ts ≤ low → cropAll low top ts = []
  | [], _ => rfl
  | t :: ts, h => by
    rw [totalWidth_cons] at h
    rw [cropAll, cropAll_of_totalWidth_le ts (by omega), crop_of_le (by omega), List.append_nil]

theorem cropAll_whole : ∀ (ts : List Term), AllWellFormed ts → totalWidth ts ≤ top →
    cropAll 0 top ts = ts
  | [], _, _ => rfl
  | t :: ts, h, htop => by
    rw [totalWidth_cons] at htop
    rw [cropAll, cropAll_whole ts h.2 (by omega), Nat.zero_sub, crop_whole h.1 (by omega),
      List.singleton_append]

/-- Positions above all parts do not count. -/
theorem cropAll_congr_top (low : Nat) : ∀ (ts : List Term), totalWidth ts ≤ top →
    totalWidth ts ≤ top' → cropAll low top ts = cropAll low top' ts
  | [], _, _ => rfl
  | t :: ts, h, h' => by
    rw [totalWidth_cons] at h h'
    rw [cropAll, cropAll, cropAll_congr_top low ts (by omega) (by omega),
      crop_of_width_le (by omega), @crop_of_width_le t _ (top' - totalWidth ts) (by omega)]

theorem cropAll_min (ts : List Term) :
    cropAll low (min top (totalWidth ts)) ts = cropAll low top ts := by
  by_cases h : top ≤ totalWidth ts
  · rw [Nat.min_eq_left h]
  · exact cropAll_congr_top low ts (by omega) (by omega)

theorem cropAll_fits : ∀ (ts : List Term), Fitting ts → ∀ (low top : Nat),
    Fitting (cropAll low top ts) ∧ totalWidth (cropAll low top ts) = min top (totalWidth ts) - low
  | [], h, low, top => ⟨h, by simp [cropAll]⟩
  | t :: ts, h, low, top => by
    have hlt : t.width + totalWidth ts < Width.limit := h.totalWidth_lt
    obtain ⟨hfit, hcount⟩ :=
      crop_fits h.head.1 h.head.2 (low - totalWidth ts) (top - totalWidth ts)
    obtain ⟨hfits, hcounts⟩ := cropAll_fits ts h.tail low top
    rw [cropAll, Fitting.append_iff, totalWidth_append, hcount, hcounts, totalWidth_cons]
    exact ⟨⟨hfit, hfits, by omega⟩, by omega⟩

theorem cropAll_ne_nil (h : Fitting ts) (hlow : low < top) (hts : low < totalWidth ts) :
    cropAll low top ts ≠ [] := by
  intro hnil
  have hcount := (cropAll_fits ts h low top).2
  rw [hnil, totalWidth_nil] at hcount
  omega

theorem pieces_eq_cropAll (hle : low ≤ high) (ts : List Term) (h : AllWellFormed ts) :
    pieces high low ts = cropAll low (high + 1) ts := by
  induction ts with
  | nil => rfl
  | cons t ts ih =>
    have hpos := h.1.width_pos
    rw [pieces_cons hpos, ih h.2, cropAll]
    split
    · rw [crop_of_le (by omega), List.nil_append]
    · rename_i hin
      simp only [not_or, Nat.not_lt, Nat.not_le] at hin
      rw [crop, if_pos (by omega), List.singleton_append]
      congr 2 <;> omega

/-- An extraction from a concatenation is one from each part. -/
theorem mkExtract_concat (h : (extract high low (concat ts)).WellFormed) (hn : (concat ts).Normal) :
    mkExtract high low (concat ts) = mkConcat (cropAll low (high + 1) ts) := by
  obtain ⟨hcat, hle, -⟩ := h
  rw [mkExtract.eq_def]
  split
  · rename_i hwhole
    rw [width_concat] at hwhole
    obtain ⟨rfl, hwhole⟩ := hwhole
    rw [cropAll_whole ts hcat.2.1 (by omega), mkConcat_of_joined hn.2]
  · simp only [pieces_eq_cropAll hle ts hcat.2.1]

theorem totalWidth_flatten (h : t.WellFormed) : totalWidth (flatten t) = t.width := by
  have hcount := (flatten_replaces h).totalWidth_eq
  rwa [totalWidth_cons, totalWidth_nil, Nat.add_zero] at hcount

theorem mkExtract_flatten (h : (extract high low t).WellFormed) (hn : t.Normal) :
    mkExtract high low t = mkConcat (cropAll low (high + 1) (flatten t)) := by
  fun_cases flatten t with
  | case1 ts => exact mkExtract_concat h hn
  | case2 t =>
    have hle := h.2.1
    have hlt := h.2.2
    rw [cropAll_singleton, crop_of_lt (by omega) (by omega), Nat.add_sub_cancel,
      mkConcat_self (mkExtract_normal t h.regular hn)]

/-! ## Nested ranges -/

/-- An extraction from any range of bits of the term is one from the term. -/
def Composes (t : Term) : Prop :=
  ∀ ⦃high low high' low'⦄, low ≤ high → high < t.width → low' ≤ high' → high' ≤ high - low →
    mkExtract high' low' (mkExtract high low t) = mkExtract (high' + low) (low' + low) t

theorem cropAll_crop (h : t.WellFormed) (hc : Composes t) :
    cropAll low' top' (crop low top t) = crop (low' + low) (min (top' + low) top) t := by
  rcases crop_cases h low top with ⟨hle, hcrop⟩ | ⟨hlt, hcrop, hwf⟩
  · rw [hcrop, cropAll, crop_of_le (by omega)]
  · have hrep := mkExtract_replaces t hwf
    have hwidth := hrep.width_eq
    rw [width_extract] at hwidth
    rw [hcrop, cropAll_singleton]
    rcases crop_cases hrep.wellFormed low' top' with ⟨hle, hcrop'⟩ | ⟨hlt', hcrop', -⟩
    · rw [hcrop', crop_of_le (by omega)]
    · rw [hcrop', hc (by omega) (by omega) (by omega) (by omega), crop, if_pos (by omega)]
      congr 2
      omega

theorem cropAll_cropAll : ∀ (ts : List Term), Fitting ts → (∀ t ∈ ts, Composes t) →
    cropAll low' top' (cropAll low top ts) = cropAll (low' + low) (min (top' + low) top) ts
  | [], _, _ => rfl
  | t :: ts, h, hc => by
    have hrest := cropAll_cropAll ts h.tail fun u hu => hc u (List.mem_cons_of_mem _ hu)
    have hcount := (cropAll_fits ts h.tail low top).2
    rw [cropAll, cropAll_append, hrest, cropAll, cropAll_crop h.head.1 (hc t List.mem_cons_self),
      hcount]
    congr 1
    by_cases htop : top ≤ totalWidth ts
    · rw [crop_of_le (by omega), crop_of_le (by omega)]
    · congr 1 <;> omega

theorem mkExtract_slice (hsolid : x.isSolid = true) (hle : low ≤ high) :
    mkExtract high' low' (slice high low x) = slice (high' + low) (low' + low) x := by
  by_cases hwhole : low = 0 ∧ high + 1 = x.width
  · rw [slice, if_pos hwhole, mkExtract_of_solid hsolid, hwhole.1, Nat.add_zero, Nat.add_zero]
  · rw [slice, if_neg hwhole, mkExtract.eq_def, width_extract]
    split
    · rename_i hall
      rw [hall.1, Nat.zero_add, show high' + low = high by omega, slice, if_neg hwhole]
    · exact mkExtract_of_solid hsolid

theorem composes_lit {v w : Nat} (h : (lit v w).WellFormed) : Composes (lit v w) := by
  intro high low high' low' hle hhigh hle' hhigh'
  have hwf : (extract high low (lit v w)).WellFormed := ⟨h, hle, hhigh⟩
  have hrep := mkExtract_replaces _ hwf
  have hwidth := hrep.width_eq
  have hlit := mkExtract_lit hwf
  rw [width_extract] at hwidth
  rw [hlit] at hrep hwidth ⊢
  rw [mkExtract_lit ⟨hrep.wellFormed, hle', by omega⟩,
    mkExtract_lit ⟨h, by omega, by simp only [width] at hhigh ⊢; omega⟩,
    Word.slice_slice v low (by omega), show high' + low - (low' + low) = high' - low' by omega,
    Nat.add_comm low]

theorem composes_atomic (h : g.WellFormed) (hn : g.Normal) (hg : g.isAtomic = true) :
    Composes g := by
  rcases hlit : g.isLit with _ | _
  · obtain ⟨x, offset, hsolid, hwidth, hslice⟩ := mkExtract_eq_slice h hn hg hlit
    intro high low high' low' hle hhigh hle' hhigh'
    rw [hslice _ _ hle hhigh, hslice _ _ (by omega) (by omega),
      mkExtract_slice hsolid (by omega), Nat.add_assoc, Nat.add_assoc]
  · rcases g with ⟨v, w⟩ | _
    · exact composes_lit h
    all_goals cases hlit

/-! ## Joining before cropping -/

/-- What two parts are joined to has the two as its upper and its lower bits. -/
theorem join?_halves (h : Fitting [u, t]) (hs : join? u t = some s) :
    s.WellFormed ∧ s.Normal ∧ s.isAtomic = true ∧ s.width = u.width + t.width
      ∧ crop t.width s.width s = [u] ∧ crop 0 t.width s = [t] := by
  have hu := h.head
  have ht := h.tail.head
  have hlt : u.width + (t.width + 0) < Width.limit := h.totalWidth_lt
  have hrep := join?_replaces hu.1 ht.1 (by omega) hs
  have hpos := hu.1.width_pos
  have hpos' := ht.1.width_pos
  have hwidth := hrep.totalWidth_eq
  simp only [totalWidth_cons, totalWidth_nil] at hwidth
  refine ⟨hrep.wellFormed.1, (join?_normal hs hu.2).1, join?_atomic hu.2 hs, by omega, ?_⟩
  rw [crop_of_lt (by omega) (Nat.le_refl _), crop_of_lt hpos' (by omega)]
  have hwf := hrep.wellFormed.1
  revert hs
  fun_cases join? u t with
  | case1 a w b w' =>
    rintro ⟨⟩
    have hb : b < 2 ^ w' := ht.1.1
    simp only [const, width,
      Word.truncate_of_lt (Word.shiftLeft_or_lt hu.1.1 hb)] at hwf hpos hpos' ⊢
    rw [mkExtract_lit ⟨hwf, by omega, by simp only [width]; omega⟩,
      mkExtract_lit ⟨hwf, by omega, by simp only [width]; omega⟩,
      Word.slice_or_high a hb (Nat.le_refl _), Word.slice_or_low a b (by omega), Nat.sub_self,
      Nat.shiftRight_zero, Nat.shiftRight_zero, show w + w' - 1 - w' + 1 = w by omega,
      show w' - 1 - 0 + 1 = w' by omega, Nat.mod_eq_of_lt hu.1.1, Nat.mod_eq_of_lt hb]
    exact ⟨rfl, rfl⟩
  | case2 hi lo x hi' lo' x' hmeet =>
    rintro ⟨⟩
    obtain ⟨rfl, hmeet⟩ := hmeet
    obtain ⟨-, hle, -⟩ := hu.1
    obtain ⟨-, hle', -⟩ := ht.1
    rw [width_extract, width_extract] at hwidth
    rw [Nat.add_zero] at hwidth
    rw [width_extract, hwidth, mkExtract_slice hu.2.2.1 (by omega),
      mkExtract_slice hu.2.2.1 (by omega)]
    have hupper : slice hi lo x = extract hi lo x := if_neg hu.2.2.2
    have hlower : slice hi' lo' x = extract hi' lo' x := if_neg ht.2.2.2
    rw [← hupper, ← hlower]
    refine ⟨?_, ?_⟩ <;> congr 2 <;> omega
  | case3 | case4 => rintro ⟨⟩

theorem joinParts_pair (h : join? u t = some s) (hu : u.isConcat = false)
    (ht : t.isConcat = false) : joinParts [u, t] = [s] := by
  rw [joinParts, flatMap_flatten_of_flat (by simp [hu, ht])]
  simp [pushPart, h]

/-- A part that was joined from two is cropped as the two are. -/
theorem joinParts_crop_join (h : Fitting [u, t]) (hs : join? u t = some s) :
    joinParts (cropAll low top [u, t]) = joinParts (crop low top s) := by
  obtain ⟨hwf, hn, hatomic, hwidth, hupper, hlower⟩ := join?_halves h hs
  have hc := composes_atomic hwf hn hatomic
  have hpos := h.tail.head.1.width_pos
  have hpos' := h.head.1.width_pos
  have hsplit : cropAll low top [u, t]
      = crop (low - t.width + t.width) (min (top - t.width + t.width) s.width) s
        ++ crop low (min top t.width) s := by
    rw [cropAll_pair, ← @cropAll_singleton u, ← @cropAll_singleton t, ← hupper, ← hlower,
      cropAll_crop hwf hc, cropAll_crop hwf hc, Nat.add_zero, Nat.add_zero]
  rw [hsplit]
  by_cases htop : top ≤ t.width
  · rw [crop_of_le (by omega), Nat.min_eq_left htop, List.nil_append]
  by_cases hlow : t.width ≤ low
  · have hempty : crop low (min top t.width) s = [] := crop_of_le (by omega)
    rw [hempty, List.append_nil, Nat.sub_add_cancel hlow, Nat.sub_add_cancel (by omega), crop_min]
  -- The range lies across the middle, and its two sides are joined again.
  obtain ⟨m, hm⟩ : ∃ m, min top s.width = m := ⟨_, rfl⟩
  have hjoin := join?_neighbours hwf hn hatomic (show low ≤ t.width - 1 by omega)
    (show t.width - 1 < m - 1 by omega) (by omega)
  rw [Nat.sub_add_cancel hpos] at hjoin
  have hflat : ∀ high low, low ≤ high → high < s.width → (mkExtract high low s).isConcat = false :=
    fun high low hle hlt => isConcat_mkExtract ⟨hwf, hle, hlt⟩ hn hatomic
  have hone : joinParts [mkExtract (m - 1) low s] = [mkExtract (m - 1) low s] :=
    joinParts_of_apart (by simpa using hflat _ _ (by omega) (by omega)) trivial
  have hcrop : crop low top s = [mkExtract (m - 1) low s] := by
    rw [← crop_min, hm, crop_of_lt (by omega) (by omega)]
  rw [hcrop, hone, show low - t.width + t.width = t.width by omega, Nat.sub_add_cancel (by omega),
    hm, Nat.min_eq_right (show t.width ≤ top by omega), crop_of_lt (by omega) (by omega),
    crop_of_lt (by omega) (by omega)]
  exact joinParts_pair hjoin (hflat _ _ (by omega) (by omega)) (hflat _ _ (by omega) (by omega))

theorem joinParts_cropAll_join (h : Fitting ([u, t] ++ ts)) (hs : join? u t = some s) :
    joinParts (cropAll low top (s :: ts)) = joinParts (cropAll low top ([u, t] ++ ts)) := by
  obtain ⟨hwf, hn, -, hwidth, -⟩ := join?_halves h.left hs
  have hfit : Fitting (s :: ts) := h.right.cons ⟨hwf, hn⟩ (by
    have hlt := h.totalWidth_lt
    rw [totalWidth_append, totalWidth_cons, totalWidth_cons, totalWidth_nil] at hlt
    omega)
  have hleft := (cropAll_fits _ hfit low top).1
  have hright := (cropAll_fits _ h low top).1
  rw [cropAll] at hleft ⊢
  rw [cropAll_append] at hright ⊢
  exact joinParts_append_congr hleft hright (joinParts_crop_join h.left hs).symm rfl

/-- Parts that are no concatenations may be joined before they are cropped. -/
theorem joinParts_cropAll_flat : ∀ (ts : List Term), Fitting ts → (∀ t ∈ ts, t.isConcat = false) →
    joinParts (cropAll low top (joinParts ts)) = joinParts (cropAll low top ts)
  | [], _, _ => rfl
  | t :: ts, h, hflat => by
    have ih := joinParts_cropAll_flat ts h.tail fun u hu => hflat u (List.mem_cons_of_mem _ hu)
    have hstep : joinParts (cropAll low top (t :: joinParts ts))
        = joinParts (cropAll low top (t :: ts)) := by
      have hleft := (cropAll_fits _ h.cons_joined low top).1
      have hright := (cropAll_fits _ h low top).1
      rw [cropAll, totalWidth_joinParts h.tail] at hleft ⊢
      rw [cropAll] at hright ⊢
      exact joinParts_append_congr hleft hright rfl ih
    rw [← hstep]
    rcases joinParts_cons_cases h (hflat t List.mem_cons_self) with
      ⟨rfl, hjoin⟩ | ⟨u, us, hrest, hfits, ⟨-, hjoin⟩ | ⟨s, hs, hjoin⟩⟩
    · rw [hjoin]
      rfl
    · rw [hjoin, hrest]
    · -- `t` is joined to the first of the others, and the two are cropped as one.
      rw [hjoin, hrest]
      exact joinParts_cropAll_join hfits hs

end Term

end SymWord
