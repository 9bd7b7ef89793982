import SymWord.Proofs.Replacement
import SymWord.Term.Normal.Slices

/-!
# The rules for slices are sound

What `mkExtract`, `mkConcat`, `mkZeroExtend` and `mkSignExtend` make of well-formed operands
replaces the node over the same operands. A slice of a number is `(v >>> low) % 2 ^ n`, and all
rules come down to how slices of a number meet, nest, and fall on the two sides of a concatenation.
-/

namespace SymWord

namespace Word

theorem testBit_of_lt {v n i : Nat} (h : v < 2 ^ n) (hi : n ≤ i) : v.testBit i = false :=
  Nat.testBit_lt_two_pow (Nat.lt_of_lt_of_le h (Nat.pow_le_pow_right (by decide) hi))

theorem slice_slice (v l : Nat) {k m n : Nat} (h : k + m ≤ n) :
    (((v >>> l) % 2 ^ n) >>> k) % 2 ^ m = (v >>> (l + k)) % 2 ^ m := by
  refine Nat.eq_of_testBit_eq fun i => ?_
  simp only [Nat.testBit_mod_two_pow, Nat.testBit_shiftRight]
  by_cases hi : i < m
  · simp [hi, show k + i < n by omega, Nat.add_assoc]
  · simp [hi]

/-- Two slices that meet. -/
theorem slice_or_slice (v l m n : Nat) :
    (((v >>> (l + n)) % 2 ^ m) <<< n) ||| ((v >>> l) % 2 ^ n) = (v >>> l) % 2 ^ (m + n) := by
  refine Nat.eq_of_testBit_eq fun i => ?_
  simp only [Nat.testBit_mod_two_pow, Nat.testBit_shiftRight, Nat.testBit_or, Nat.testBit_shiftLeft]
  by_cases hi : n ≤ i
  · rw [show l + n + (i - n) = l + i by omega]
    by_cases hm : i - n < m
    · simp [hi, hm, show i < m + n by omega, show ¬ i < n by omega]
    · simp [hm, show ¬ i < m + n by omega, show ¬ i < n by omega]
  · simp [hi, show i < m + n by omega, show i < n by omega]

/-- A slice of the lower half of two numbers put together. -/
theorem slice_or_low (a b : Nat) {k l n : Nat} (h : l + k ≤ n) :
    (((a <<< n) ||| b) >>> l) % 2 ^ k = (b >>> l) % 2 ^ k := by
  refine Nat.eq_of_testBit_eq fun i => ?_
  simp only [Nat.testBit_mod_two_pow, Nat.testBit_shiftRight, Nat.testBit_or, Nat.testBit_shiftLeft]
  by_cases hi : i < k
  · simp [show ¬ n ≤ l + i by omega]
  · simp [hi]

theorem slice_or_high (a : Nat) {b k l n : Nat} (hb : b < 2 ^ n) (h : n ≤ l) :
    (((a <<< n) ||| b) >>> l) % 2 ^ k = (a >>> (l - n)) % 2 ^ k := by
  refine Nat.eq_of_testBit_eq fun i => ?_
  simp only [Nat.testBit_mod_two_pow, Nat.testBit_shiftRight, Nat.testBit_or, Nat.testBit_shiftLeft,
    testBit_of_lt hb (show n ≤ l + i by omega), Bool.or_false]
  rw [show l + i - n = l - n + i by omega]
  simp [show n ≤ l + i by omega]

theorem slice_or_across (a : Nat) {b k l n : Nat} (hb : b < 2 ^ n) (h : l ≤ n) :
    (((a <<< n) ||| b) >>> l) % 2 ^ (k + (n - l)) = ((a % 2 ^ k) <<< (n - l)) ||| (b >>> l) := by
  refine Nat.eq_of_testBit_eq fun i => ?_
  simp only [Nat.testBit_mod_two_pow, Nat.testBit_shiftRight, Nat.testBit_or, Nat.testBit_shiftLeft]
  by_cases hi : n - l ≤ i
  · rw [testBit_of_lt hb (show n ≤ l + i by omega), show l + i - n = i - (n - l) by omega]
    by_cases hk : i - (n - l) < k
    · simp [hi, hk, show n ≤ l + i by omega, show i < k + (n - l) by omega]
    · simp [hk, show ¬ i < k + (n - l) by omega]
  · simp [hi, show ¬ n ≤ l + i by omega, show i < k + (n - l) by omega]

end Word

namespace Term

variable {t : Term} {ts : List Term} {bits high low : Nat}

/-! ### Extensions -/

theorem mkZeroExtend_replaces (h : (zeroExtend bits t).WellFormed) :
    Replaces (mkZeroExtend bits t) (zeroExtend bits t) := by
  have hlt := h.2
  fun_cases mkZeroExtend bits t with
  | case1 =>
    obtain rfl : bits = 0 := ‹_›
    refine ⟨h.1, ?_, fun _ => rfl, List.Subset.refl _⟩
    rw [width_zeroExtend hlt, Nat.zero_add]
  | case2 hbits v w =>
    have hle : 2 ^ w ≤ 2 ^ (w + bits) := Nat.pow_le_pow_right (by decide) (by omega)
    have hw : w + bits < Width.limit := by
      rw [Nat.add_comm]
      exact hlt
    refine ⟨wellFormed_const ⟨by omega, hw⟩, ?_, fun I => ?_, List.Subset.refl _⟩
    · rw [width_zeroExtend hlt, Nat.add_comm, const, width, width]
    · rw [const, denote, Word.truncate_of_lt (Nat.lt_of_lt_of_le h.1.1 hle), denote, denote]
  | case3 hbits bits' x =>
    have hx := h.1.2
    rw [width_zeroExtend hx] at hlt
    refine ⟨⟨h.1.1, by omega⟩, ?_, fun _ => rfl, List.Subset.refl _⟩
    rw [width_zeroExtend (by omega), width_zeroExtend h.2, width_zeroExtend hx, Nat.add_assoc]
  | case4 => exact Replaces.refl h

theorem mkSignExtend_replaces (h : (signExtend bits t).WellFormed) :
    Replaces (mkSignExtend bits t) (signExtend bits t) := by
  have hlt := h.2
  unfold mkSignExtend
  split
  · rename_i hbits
    subst hbits
    refine ⟨h.1, ?_, fun I => ?_, List.Subset.refl _⟩
    · rw [width_signExtend hlt, Nat.zero_add]
    · rw [denote, Nat.add_zero, Word.signExtend, Nat.xor_self, Nat.or_zero, ite_self]
  split
  · rename_i v w
    have hw : w + bits < Width.limit := by
      rw [Nat.add_comm]
      exact hlt
    refine ⟨wellFormed_const ⟨by omega, hw⟩, ?_, fun I => ?_, List.Subset.refl _⟩
    · rw [width_signExtend hlt, Nat.add_comm, const, width, width]
    · rw [const, denote, Word.truncate_of_lt (Word.signExtend_lt h.1.1 (by omega)), denote, denote,
        width]
  · exact Replaces.refl h

/-! ### Concatenations -/

theorem denote_extract (I : Interpretation) :
    (extract high low t).denote I = (t.denote I >>> low) % 2 ^ (high - low + 1) := by
  rw [denote, Word.truncate_eq]

/-- The extraction of all bits is the operand. -/
theorem replaces_whole (h : (extract high low t).WellFormed)
    (hwhole : low = 0 ∧ high + 1 = t.width) : Replaces t (extract high low t) := by
  obtain ⟨rfl, hw⟩ := hwhole
  refine ⟨h.1, ?_, fun I => ?_, List.Subset.refl _⟩
  · rw [width_extract]
    omega
  · rw [denote_extract I, Nat.sub_zero, hw, Nat.shiftRight_zero,
      Nat.mod_eq_of_lt (denote_lt I h.1)]

theorem slice_replaces (h : (extract high low t).WellFormed) :
    Replaces (slice high low t) (extract high low t) := by
  unfold slice
  split
  · rename_i hwhole
    exact replaces_whole h hwhole
  · exact Replaces.refl h

/-- Two neighbouring extractions are one. -/
theorem replaces_meeting {high' low' : Nat} (h : (extract high low t).WellFormed)
    (h' : (extract high' low' t).WellFormed) (hmeet : low = high' + 1) :
    ReplacesParts [extract high low' t] [extract high low t, extract high' low' t] := by
  have hle := h.2.1
  have hle' := h'.2.1
  have hwf : (extract high low' t).WellFormed := ⟨h.1, by omega, h.2.2⟩
  refine ⟨⟨hwf, trivial⟩, ?_, fun I => ?_, ?_⟩
  · simp only [totalWidth_cons, totalWidth_nil, width_extract, width_extract, width_extract]
    omega
  · have hn : high - low' + 1 = (high - low + 1) + (high' - low' + 1) := by omega
    rw [denote_concat_singleton, denote_concat_pair, width_extract, denote_extract I,
      denote_extract I, denote_extract I, hn, ← Word.slice_or_slice,
      show low' + (high' - low' + 1) = low by omega]
  · simp [listMentions, mentions]

theorem join?_replaces {u l s : Term} (hu : u.WellFormed) (hl : l.WellFormed)
    (hlt : u.width + l.width < Width.limit) (hs : join? u l = some s) :
    ReplacesParts [s] [u, l] := by
  fun_cases join? u l with
  | case1 a w b w' =>
    simp only [join?, Option.some.injEq] at hs
    have hw := hl.width_pos
    subst hs
    refine ⟨⟨wellFormed_const ⟨?_, hlt⟩, trivial⟩, ?_, fun I => ?_, List.Subset.refl _⟩
    · simp only [width] at hw
      omega
    · simp [const, width]
    · rw [denote_concat_singleton, denote_concat_pair]
      exact Word.truncate_of_lt (Word.shiftLeft_or_lt hu.1 hl.1)
  | case2 high low t high' low' t' hmeet =>
    obtain ⟨rfl, hmeet⟩ := hmeet
    have hle := hu.2.1
    have hle' := hl.2.1
    simp only [join?, hmeet, and_self, if_true, Option.some.injEq] at hs
    subst hs
    refine (ReplacesParts.singleton (slice_replaces ⟨hu.1, by omega, hu.2.2⟩)).trans ?_
    exact replaces_meeting hu hl hmeet
  | case3 high low t high' low' t' hmeet =>
    simp [join?, hmeet] at hs
  | case4 =>
    simp [join?] at hs

theorem pushPart_replaces {parts : List Term} (hp : AllWellFormed parts) (ht : t.WellFormed)
    (hlt : totalWidth parts + t.width < Width.limit) :
    ReplacesParts (pushPart parts t).reverse (parts.reverse ++ [t]) := by
  fun_cases pushPart parts t with
  | case1 => exact ReplacesParts.refl ⟨ht, trivial⟩
  | case2 last rest u hu =>
    rw [totalWidth_cons] at hlt
    rw [List.reverse_cons, List.reverse_cons, List.append_assoc]
    have hrest := ReplacesParts.refl (allWellFormed_reverse.2 hp.2)
    exact hrest.append (join?_replaces hp.1 ht (by omega) hu)
  | case3 last rest =>
    rw [List.reverse_cons]
    exact ReplacesParts.refl (allWellFormed_append.2 ⟨allWellFormed_reverse.2 hp, ht, trivial⟩)

theorem totalWidth_reverse (ts : List Term) : totalWidth ts.reverse = totalWidth ts := by
  induction ts with
  | nil => rfl
  | cons t ts ih =>
    rw [List.reverse_cons, totalWidth_append, ih, totalWidth_cons, totalWidth_cons, totalWidth_nil]
    omega

theorem foldl_pushPart_replaces : ∀ (ts parts : List Term), AllWellFormed ts →
    AllWellFormed parts → totalWidth parts + totalWidth ts < Width.limit →
      ReplacesParts (ts.foldl pushPart parts).reverse (parts.reverse ++ ts)
  | [], parts, _, hp, _ => by
    rw [List.foldl_nil, List.append_nil]
    exact ReplacesParts.refl (allWellFormed_reverse.2 hp)
  | t :: ts, parts, ht, hp, hlt => by
    rw [totalWidth_cons] at hlt
    have hpush := pushPart_replaces hp ht.1 (by omega)
    have hcount := hpush.totalWidth_eq
    rw [totalWidth_reverse, totalWidth_append, totalWidth_reverse, totalWidth_cons,
      totalWidth_nil] at hcount
    have hrest := foldl_pushPart_replaces ts (pushPart parts t) ht.2
      (allWellFormed_reverse.1 hpush.wellFormed) (by omega)
    rw [List.foldl_cons, ← List.singleton_append, ← List.append_assoc]
    exact hrest.trans (hpush.append (ReplacesParts.refl ht.2))

theorem flatten_replaces (h : t.WellFormed) : ReplacesParts (flatten t) [t] := by
  fun_cases flatten t with
  | case1 ts =>
    refine ⟨h.2.1, ?_, fun I => (denote_concat_singleton I _).symm, ?_⟩
    · rw [totalWidth_cons, totalWidth_nil, width_concat, Nat.add_zero]
    · simp [listMentions, mentions]
  | case2 => exact ReplacesParts.refl ⟨h, trivial⟩

def isConcat : Term → Bool
  | concat _ => true
  | _ => false

theorem flatMap_flatten_of_flat (h : ∀ t ∈ ts, t.isConcat = false) : ts.flatMap flatten = ts := by
  induction ts with
  | nil => rfl
  | cons t ts ih =>
    have ht := h t List.mem_cons_self
    have hflat : flatten t = [t] := by
      cases t <;> first | rfl | cases ht
    rw [List.flatMap_cons, hflat, ih fun u hu => h u (List.mem_cons_of_mem _ hu),
      List.singleton_append]

theorem flatMap_flatten_replaces (h : AllWellFormed ts) :
    ReplacesParts (ts.flatMap flatten) ts := by
  induction ts with
  | nil => exact ReplacesParts.refl trivial
  | cons t ts ih =>
    rw [List.flatMap_cons]
    exact (flatten_replaces h.1).append (ih h.2)

theorem joinParts_replaces (h : AllWellFormed ts) (hlt : totalWidth ts < Width.limit) :
    ReplacesParts (joinParts ts) ts := by
  have hflat := flatMap_flatten_replaces h
  refine (foldl_pushPart_replaces _ [] hflat.wellFormed trivial ?_).trans hflat
  rw [hflat.totalWidth_eq, totalWidth_nil]
  omega

/-- A leading zero is a zero extension of the rest. -/
theorem replaces_leading_zero (h : (concat (t :: ts)).WellFormed) (hne : ts ≠ [])
    (hzero : t.isZero = true) :
    Replaces (zeroExtend t.width (concat ts)) (concat (t :: ts)) := by
  obtain ⟨-, ⟨-, hts⟩, hlt⟩ := h
  rw [totalWidth_cons] at hlt
  have hcat : (concat ts).WellFormed := ⟨hne, hts, by omega⟩
  have hw : t.width + (concat ts).width < Width.limit := by
    rw [width_concat]
    exact hlt
  refine ⟨⟨hcat, hw⟩, ?_, fun I => ?_, List.subset_append_right _ _⟩
  · rw [width_zeroExtend hw, width_concat, width_concat,
      totalWidth_cons]
  · have hden : t.denote I = 0 := by
      cases t <;> simp [isZero] at hzero
      simpa [denote] using hzero
    rw [denote_concat_cons, hden, Nat.zero_shiftLeft, Nat.zero_or]
    rfl

theorem mkConcat_replaces (h : (concat ts).WellFormed) :
    Replaces (mkConcat ts) (concat ts) := by
  have hcat := Replaces.concat (joinParts_replaces h.2.1 h.2.2) h
  fun_cases mkConcat ts with
  | case1 t heq =>
    rw [heq] at hcat
    exact (replaces_concat_singleton hcat.wellFormed.2.1.1).trans hcat
  | case2 t u heq hzero =>
    rw [heq] at hcat
    have hext := replaces_leading_zero hcat.wellFormed (by simp) hzero
    have hu := replaces_concat_singleton hcat.wellFormed.2.1.2.1
    have hnode := (hu.zeroExtend hext.wellFormed.2).trans hext
    exact (mkZeroExtend_replaces hnode.wellFormed).trans (hnode.trans hcat)
  | case4 t us hne _ heq hzero =>
    rw [heq] at hcat
    have hext := replaces_leading_zero hcat.wellFormed hne hzero
    exact (mkZeroExtend_replaces hext.wellFormed).trans (hext.trans hcat)
  | case3 _ _ heq | case5 _ _ _ _ heq | case6 heq =>
    rw [heq] at hcat
    exact hcat

theorem mkConcat_replaces_of_parts {ss : List Term} (h : ReplacesParts ss [t])
    (ht : t.WellFormed) : Replaces (mkConcat ss) t := by
  have hcat := Replaces.concat h (concat_singleton_replaces ht).wellFormed
  exact (mkConcat_replaces hcat.wellFormed).trans (hcat.trans (concat_singleton_replaces ht))

/-! ### Extractions -/

/-- The bits of the parts from `low` up to `high`, or up to the top if that comes first. -/
structure SliceOf (high low : Nat) (ss ts : List Term) : Prop where
  wellFormed : AllWellFormed ss
  totalWidth_eq : totalWidth ss = min (high + 1) (totalWidth ts) - low
  denote_eq : ∀ I, (concat ss).denote I
    = ((concat ts).denote I >>> low) % 2 ^ (min (high + 1) (totalWidth ts) - low)
  mentions_subset : listMentions ss ⊆ listMentions ts

namespace SliceOf

variable {ss : List Term}

protected theorem nil : SliceOf high low [] [] := by
  refine ⟨trivial, by simp, fun I => ?_, List.Subset.refl _⟩
  simp

/-- A part below the slice. -/
theorem below (h : SliceOf high low ss ts) (hlow : t.width + totalWidth ts ≤ low) :
    SliceOf high low ss (t :: ts) := by
  have hz : min (high + 1) (totalWidth ts) - low = 0 := by omega
  have hz' : min (high + 1) (totalWidth (t :: ts)) - low = 0 := by
    rw [totalWidth_cons]
    omega
  refine ⟨h.wellFormed, ?_, fun I => ?_, ?_⟩
  · rw [h.totalWidth_eq, hz, hz']
  · rw [h.denote_eq, hz, hz', Nat.pow_zero, Nat.mod_one, Nat.mod_one]
  · exact List.Subset.trans h.mentions_subset (List.subset_append_right _ _)

/-- A part above the slice. -/
theorem above (h : SliceOf high low ss ts) (hhigh : high < totalWidth ts) :
    SliceOf high low ss (t :: ts) := by
  have hn : min (high + 1) (totalWidth (t :: ts)) = high + 1 := by
    rw [totalWidth_cons]
    omega
  have hn' : min (high + 1) (totalWidth ts) = high + 1 := by omega
  refine ⟨h.wellFormed, ?_, fun I => ?_, ?_⟩
  · rw [h.totalWidth_eq, hn, hn']
  · rw [h.denote_eq, hn, hn', denote_concat_cons]
    by_cases hle : low ≤ high
    · exact (Word.slice_or_low _ _ (by omega)).symm
    · rw [show high + 1 - low = 0 by omega, Nat.pow_zero, Nat.mod_one, Nat.mod_one]
  · exact List.Subset.trans h.mentions_subset (List.subset_append_right _ _)

/-- A part that the slice meets. -/
theorem cons {p : Term} (h : SliceOf high low ss ts) (hts : AllWellFormed ts)
    (hhigh : totalWidth ts ≤ high) (hlow : low < t.width + totalWidth ts) (hle : low ≤ high)
    (hwf : (extract (min high (totalWidth ts + t.width - 1) - totalWidth ts)
      (max low (totalWidth ts) - totalWidth ts) t).WellFormed)
    (hp : Replaces p (extract (min high (totalWidth ts + t.width - 1) - totalWidth ts)
      (max low (totalWidth ts) - totalWidth ts) t)) :
    SliceOf high low (p :: ss) (t :: ts) := by
  have hw := hwf.1.width_pos
  have hrest : min (high + 1) (totalWidth ts) - low = totalWidth ts - low := by omega
  have hpw := hp.width_eq
  rw [width_extract] at hpw
  refine ⟨⟨hp.wellFormed, h.wellFormed⟩, ?_, fun I => ?_, ?_⟩
  · rw [totalWidth_cons, totalWidth_cons, h.totalWidth_eq, hpw]
    omega
  · have hd := denote_concat_lt I hts
    rw [denote_concat_cons, denote_concat_cons, h.totalWidth_eq, h.denote_eq, hp.denote_eq,
      denote_extract I, hrest]
    by_cases hbot : totalWidth ts ≤ low
    · rw [Word.slice_or_high _ hd hbot, show totalWidth ts - low = 0 by omega, Nat.pow_zero,
        Nat.mod_one, Nat.or_zero, Nat.shiftLeft_zero, Nat.max_eq_left hbot, totalWidth_cons]
      congr 2
      omega
    · have hn : min (high + 1) (totalWidth (t :: ts)) - low
          = (min high (totalWidth ts + t.width - 1) - totalWidth ts + 1)
            + (totalWidth ts - low) := by
        rw [totalWidth_cons]
        omega
      have hlt : (concat ts).denote I >>> low < 2 ^ (totalWidth ts - low) := by
        rw [Nat.shiftRight_eq_div_pow, Nat.div_lt_iff_lt_mul (Nat.two_pow_pos low), ← Nat.pow_add,
          Nat.sub_add_cancel (by omega)]
        exact hd
      have hmax : max low (totalWidth ts) - totalWidth ts = 0 := by omega
      rw [hn, Word.slice_or_across _ hd (by omega), hmax, Nat.shiftRight_zero, Nat.sub_zero,
        Nat.mod_eq_of_lt hlt]
  · exact Replaces.append_subset hp.mentions_subset h.mentions_subset

/-- A slice that lies inside the parts. -/
theorem replacesParts (h : SliceOf high low ss ts)
    (hwf : (extract high low (concat ts)).WellFormed) :
    ReplacesParts ss [extract high low (concat ts)] := by
  obtain ⟨hcat, hle, hlt⟩ := id hwf
  rw [width_concat] at hlt
  have hn : min (high + 1) (totalWidth ts) - low = high - low + 1 := by omega
  refine ⟨h.wellFormed, ?_, fun I => ?_, ?_⟩
  · rw [h.totalWidth_eq, hn, totalWidth_cons, totalWidth_nil, width_extract, Nat.add_zero]
  · rw [h.denote_eq, hn, denote_concat_singleton, denote_extract I]
  · simpa [listMentions, mentions] using h.mentions_subset

end SliceOf

/-- An extraction of an extraction is one extraction. -/
theorem replaces_nested {high' low' : Nat}
    (h : (extract high low (extract high' low' t)).WellFormed) :
    Replaces (extract (high + low') (low + low') t) (extract high low (extract high' low' t)) := by
  obtain ⟨hin, hle, hlt⟩ := id h
  rw [width_extract] at hlt
  have hle' := hin.2.1
  have hwf : (extract (high + low') (low + low') t).WellFormed := by
    have := hin.2.2
    exact ⟨hin.1, by omega, by omega⟩
  refine ⟨hwf, ?_, fun I => ?_, List.Subset.refl _⟩
  · rw [width_extract, width_extract]
    omega
  · rw [denote_extract I, denote_extract I, denote_extract I,
      Word.slice_slice _ _ (by omega), Nat.add_comm low',
      show high + low' - (low + low') + 1 = high - low + 1 by omega]

/-- An extraction that reaches over the top of what is extended. -/
theorem replaces_across (h : (extract high low (zeroExtend bits t)).WellFormed)
    (hhigh : t.width ≤ high) (hlow : low < t.width) :
    ReplacesParts [zero (high - t.width + 1), extract (t.width - 1) low t]
      [extract high low (zeroExtend bits t)] := by
  have ht := h.1.1
  have hlt := h.valid.2
  rw [width_extract] at hlt
  have hwf : (extract (t.width - 1) low t).WellFormed := ⟨ht, by omega, by omega⟩
  refine ⟨⟨wellFormed_zero ⟨by omega, by omega⟩, hwf, trivial⟩, ?_, fun I => ?_, ?_⟩
  · simp only [totalWidth_cons, totalWidth_nil, width_zero, width_extract, width_extract]
    omega
  · have hd := denote_lt I ht
    rw [denote_concat_pair, denote_concat_singleton, zero, denote, Nat.zero_shiftLeft, Nat.zero_or,
      denote_extract I, denote_extract I, denote]
    have hshift : t.denote I >>> low < 2 ^ (t.width - 1 - low + 1) := by
      rw [Nat.shiftRight_eq_div_pow, Nat.div_lt_iff_lt_mul (Nat.two_pow_pos low), ← Nat.pow_add,
        show t.width - 1 - low + 1 + low = t.width by omega]
      exact hd
    have hle : 2 ^ (t.width - 1 - low + 1) ≤ 2 ^ (high - low + 1) :=
      Nat.pow_le_pow_right (by decide) (by omega)
    rw [Nat.mod_eq_of_lt hshift, Nat.mod_eq_of_lt (Nat.lt_of_lt_of_le hshift hle)]
  · simp [listMentions, mentions, zero]

theorem replaces_across_part {s : Term} (h : (extract high low (zeroExtend bits t)).WellFormed)
    (hhigh : t.width ≤ high) (hlow : low < t.width)
    (hs : Replaces s (extract (t.width - 1) low t)) :
    ReplacesParts [zero (high - t.width + 1), s] [extract high low (zeroExtend bits t)] := by
  have hacross := replaces_across h hhigh hlow
  have hzero : ReplacesParts [zero (high - t.width + 1)] [zero (high - t.width + 1)] :=
    ReplacesParts.refl ⟨hacross.wellFormed.1, trivial⟩
  exact (hzero.append (ReplacesParts.singleton hs)).trans hacross

theorem pieces_cons (ht : 0 < t.width) :
    pieces high low (t :: ts) =
      if totalWidth ts + t.width ≤ low ∨ high < totalWidth ts then pieces high low ts
      else mkExtract (min high (totalWidth ts + t.width - 1) - totalWidth ts)
        (max low (totalWidth ts) - totalWidth ts) t :: pieces high low ts := by
  have hout : totalWidth ts + t.width - 1 < low ↔ totalWidth ts + t.width ≤ low := by omega
  simp only [pieces, hout]

mutual

theorem mkExtract_replaces : ∀ (t : Term) {high low : Nat}, (extract high low t).WellFormed →
    Replaces (mkExtract high low t) (extract high low t) := by
  intro t high low h
  by_cases hwhole : low = 0 ∧ high + 1 = t.width
  · rw [mkExtract.eq_def, if_pos hwhole]
    exact replaces_whole h hwhole
  rw [mkExtract.eq_def, if_neg hwhole]
  match t, h with
  | lit v w, h => exact ⟨wellFormed_const h.valid, rfl, fun _ => rfl, List.Subset.refl _⟩
  | extract high' low' x, h =>
    have hnested := replaces_nested h
    exact (mkExtract_replaces x hnested.wellFormed).trans hnested
  | concat ts, h =>
    exact mkConcat_replaces_of_parts
      ((pieces_sliceOf ts h.2.1 h.1.2.1).replacesParts h) h
  | zeroExtend bits x, h =>
    have hx : x.WellFormed := h.1.1
    simp only
    split
    · rename_i hhigh
      have hin : (extract high low x).WellFormed := ⟨hx, h.2.1, hhigh⟩
      exact (mkExtract_replaces x hin).trans ⟨hin, rfl, fun _ => rfl, List.Subset.refl _⟩
    · rename_i hhigh
      split
      · rename_i hlow
        refine replaces_zero h fun I => ?_
        have hd := Nat.lt_of_lt_of_le (denote_lt I hx) (Nat.pow_le_pow_right (by decide) hlow)
        rw [denote_extract I, denote, Nat.shiftRight_eq_div_pow, Nat.div_eq_of_lt hd,
          Nat.zero_mod]
      · rename_i hlow
        have hin : (extract (x.width - 1) low x).WellFormed := ⟨hx, by omega, by omega⟩
        have hparts := replaces_across_part h (by omega) (by omega) (mkExtract_replaces x hin)
        exact mkConcat_replaces_of_parts hparts h
  | sym _ _, h | unary _ _, h | binary _ _ _, h | compare _ _ _, h | signExtend _ _, h
  | apply _ _ _, h | select _ _ _, h => exact Replaces.refl h

theorem pieces_sliceOf : ∀ (ts : List Term) {high low : Nat}, low ≤ high → AllWellFormed ts →
    SliceOf high low (pieces high low ts) ts
  | [], _, _, _, _ => SliceOf.nil
  | t :: ts, high, low, hle, h => by
    have hw := h.1.width_pos
    have ih := pieces_sliceOf ts hle h.2
    rw [pieces_cons hw]
    split
    · rename_i hout
      rcases hout with hout | hout
      · exact ih.below (by omega)
      · exact ih.above hout
    · rename_i hin
      simp only [not_or, Nat.not_lt, Nat.not_le] at hin
      have hwf : (extract (min high (totalWidth ts + t.width - 1) - totalWidth ts)
          (max low (totalWidth ts) - totalWidth ts) t).WellFormed := ⟨h.1, by omega, by omega⟩
      exact ih.cons h.2 hin.2 (by omega) hle hwf (mkExtract_replaces t hwf)

end

end Term

end SymWord
