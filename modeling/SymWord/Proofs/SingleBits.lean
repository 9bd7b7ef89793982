import SymWord.Proofs.ContiguousSlices

/-!
# Single bits put together again

The single bits of a term in normal form are the single bits of its `segments`: the parts of its
concatenations, with each zero extension opened into a literal zero and what stands below. The bits
of one segment are joined to that segment again (`foldl_pushPart_singleBits`), so putting all bits
together is putting the segments together.

That gives the term back exactly when opening its zero extensions is undone by the rules for
concatenations (`mkConcat_singleBits_eq_iff`). The rules make a zero extension of a leading zero
only, and only of one that no literal was joined to.
-/

namespace SymWord

namespace Term

variable {a b c d e g t x : Term} {ts stack : List Term} {high low k : Nat}

/-- The single bits of a term, from the top one down. -/
def singleBits (t : Term) : List Term := (List.range t.width).reverse.map fun i => mkExtract i i t

theorem singleBits_eq_slicesAt (t : Term) :
    singleBits t = slicesAt t (List.range (t.width + 1)).reverse := by
  unfold singleBits
  induction t.width with
  | zero => rfl
  | succ n ih =>
    rw [List.range_succ, List.reverse_append, List.reverse_singleton, List.singleton_append,
      List.map_cons, ih, List.range_succ (n := n + 1), List.reverse_append, List.reverse_singleton,
      List.singleton_append, List.range_succ, List.reverse_append, List.reverse_singleton,
      List.singleton_append]
    rfl

theorem cuts_range (w : Nat) : Cuts w (List.range (w + 1)).reverse where
  top := by simp [List.range_succ]
  descending := List.pairwise_reverse.2 List.pairwise_lt_range
  bottom := by simp [List.getLast?_reverse, List.head?_range]

theorem foldl_pushPart_singleBits (h : g.WellFormed) (hn : g.Normal) (hg : g.isAtomic = true)
    (hstack : AllWellFormed stack) :
    (singleBits g).foldl pushPart stack = pushPart stack g := by
  rw [singleBits_eq_slicesAt]
  exact foldl_pushPart_slicesAt h hn hg hstack (cuts_range g.width)

/-! ## Segments -/

mutual

/-- The parts of a term with concatenations and zero extensions opened. -/
def segments : Term → List Term
  | concat ts => segmentsList ts
  | zeroExtend bits t => zero bits :: segments t
  | t => [t]

def segmentsList : List Term → List Term
  | [] => []
  | t :: ts => segments t ++ segmentsList ts

end

theorem segments_of_atomic (h : t.isAtomic = true) : segments t = [t] := by
  cases t with
  | concat => cases h
  | zeroExtend => cases h
  | _ => rfl

/-- What holds of each segment of a term in normal form. -/
structure Segment (t : Term) : Prop where
  wellFormed : t.WellFormed
  normal : t.Normal
  atomic : t.isAtomic = true

theorem segment_zero {bits : Nat} (hpos : bits ≠ 0) (hlt : bits < Width.limit) :
    Segment (zero bits) :=
  ⟨wellFormed_zero ⟨Nat.pos_of_ne_zero hpos, hlt⟩, trivial, rfl⟩

mutual

theorem segments_segment : ∀ (t : Term), t.WellFormed → t.Normal → ∀ s ∈ segments t, Segment s
  | concat ts, h, hn => segmentsList_segment ts h.2.1 hn.1
  | zeroExtend bits t, h, hn => by
    have hlt := h.2
    intro s hs
    rcases List.mem_cons.1 hs with rfl | hs
    · exact segment_zero hn.2.1 (by omega)
    · exact segments_segment t h.1 hn.1 s hs
  | lit _ _, h, hn | sym _ _, h, hn | unary _ _, h, hn | binary _ _ _, h, hn
  | compare _ _ _, h, hn | extract _ _ _, h, hn | signExtend _ _, h, hn | apply _ _ _, h, hn
  | select _ _ _, h, hn => by
    intro s hs
    obtain rfl := List.mem_singleton.1 hs
    exact ⟨h, hn, rfl⟩

theorem segmentsList_segment : ∀ (ts : List Term), AllWellFormed ts → AllNormal ts →
    ∀ s ∈ segmentsList ts, Segment s
  | [], _, _ => by simp [segmentsList]
  | t :: ts, h, hn => by
    intro s hs
    rcases List.mem_append.1 hs with hs | hs
    · exact segments_segment t h.1 hn.1 s hs
    · exact segmentsList_segment ts h.2 hn.2 s hs

end

mutual

theorem totalWidth_segments : ∀ (t : Term), t.WellFormed → totalWidth (segments t) = t.width
  | concat ts, h => by
    rw [segments, totalWidth_segmentsList ts h.2.1, width_concat]
  | zeroExtend bits t, h => by
    rw [segments, totalWidth_cons, totalWidth_segments t h.1, width_zero, width_zeroExtend h.2]
  | lit _ _, _ | sym _ _, _ | unary _ _, _ | binary _ _ _, _ | compare _ _ _, _
  | extract _ _ _, _ | signExtend _ _, _ | apply _ _ _, _ | select _ _ _, _ => Nat.add_zero _

theorem totalWidth_segmentsList : ∀ (ts : List Term), AllWellFormed ts →
    totalWidth (segmentsList ts) = totalWidth ts
  | [], _ => rfl
  | t :: ts, h => by
    rw [segmentsList, totalWidth_append, totalWidth_segments t h.1, totalWidth_segmentsList ts h.2,
      totalWidth_cons]

end

/-! ## The bits of a term are those of its segments -/

/-- One bit is no concatenation of two or more parts. -/
theorem isConcat_of_width (h : t.WellFormed) (hn : t.Normal) (hw : t.width = 1) :
    t.isConcat = false := by
  cases t with
  | concat ts =>
    rw [width_concat] at hw
    have hlen := hn.2.two_le
    match ts, h.2.1, hw with
    | t :: u :: ts, hwf, hw =>
      have := hwf.1.width_pos
      have := hwf.2.1.width_pos
      simp only [totalWidth_cons] at hw
      omega
    | [_], _, _ | [], _, _ => exact absurd hlen (by simp)
  | _ => rfl

theorem isConcat_bit {i : Nat} (h : t.WellFormed) (hn : t.Normal) (hi : i < t.width) :
    (mkExtract i i t).isConcat = false := by
  have hwf : (extract i i t).WellFormed := ⟨h, Nat.le_refl i, hi⟩
  have hrep := mkExtract_replaces t hwf
  refine isConcat_of_width hrep.wellFormed (mkExtract_normal t hwf.regular hn) ?_
  rw [hrep.width_eq, width_extract]
  omega

theorem mkConcat_singleton (h : t.isConcat = false) : mkConcat [t] = t := by
  have hflat : flatten t = [t] := by
    cases t with
    | concat => cases h
    | _ => rfl
  simp [mkConcat, joinParts, hflat, pushPart]

theorem pieces_of_le (h : AllWellFormed ts) (hlow : totalWidth ts ≤ low) :
    pieces high low ts = [] := by
  induction ts with
  | nil => rfl
  | cons t ts ih =>
    rw [totalWidth_cons] at hlow
    rw [pieces_cons h.1.width_pos, if_pos (.inl (by omega)), ih h.2 (by omega)]

theorem map_range_add {α : Type} (f : Nat → α) (m n : Nat) :
    (List.range (m + n)).reverse.map f
      = (List.range m).reverse.map (fun i => f (n + i)) ++ (List.range n).reverse.map f := by
  rw [Nat.add_comm, List.range_add, List.reverse_append, List.map_append, ← List.map_reverse,
    List.map_map]
  rfl

/-- A bit of a concatenation is a bit of one of its parts. -/
theorem map_pieces : ∀ (ts : List Term), AllWellFormed ts → AllNormal ts →
    ((List.range (totalWidth ts)).reverse.map fun i => mkConcat (pieces i i ts))
      = ts.flatMap singleBits
  | [], _, _ => rfl
  | t :: ts, h, hn => by
    rw [totalWidth_cons]
    have hpos := h.1.width_pos
    have hcons : ∀ i, pieces i i (t :: ts) =
        if totalWidth ts + t.width ≤ i ∨ i < totalWidth ts then pieces i i ts
        else mkExtract (min i (totalWidth ts + t.width - 1) - totalWidth ts)
          (max i (totalWidth ts) - totalWidth ts) t :: pieces i i ts :=
      fun i => pieces_cons hpos
    rw [map_range_add, List.flatMap_cons, ← map_pieces ts h.2 hn.2]
    congr 1
    · refine List.map_congr_left fun i hi => ?_
      have hi : i < t.width := List.mem_range.1 (List.mem_reverse.1 hi)
      rw [hcons, if_neg (by omega), pieces_of_le h.2 (by omega),
        show min (totalWidth ts + i) (totalWidth ts + t.width - 1) - totalWidth ts = i by omega,
        show max (totalWidth ts + i) (totalWidth ts) - totalWidth ts = i by omega,
        mkConcat_singleton (isConcat_bit h.1 hn.1 hi)]
    · refine List.map_congr_left fun i hi => ?_
      have hi : i < totalWidth ts := List.mem_range.1 (List.mem_reverse.1 hi)
      rw [hcons, if_pos (.inr hi)]

theorem singleBits_concat (h : (concat ts).WellFormed) (hn : (concat ts).Normal) :
    singleBits (concat ts) = ts.flatMap singleBits := by
  rw [← map_pieces ts h.2.1 hn.1, singleBits, width_concat]
  refine List.map_congr_left fun i _ => ?_
  have hone : (concat ts).width ≠ 1 := fun hw => by
    have := isConcat_of_width h hn hw
    cases this
  rw [mkExtract.eq_def, if_neg]
  rintro ⟨rfl, hwhole⟩
  exact hone hwhole.symm

theorem singleBits_zeroExtend {bits : Nat} (h : (zeroExtend bits t).WellFormed) (hbits : bits ≠ 0) :
    singleBits (zeroExtend bits t) = singleBits (zero bits) ++ singleBits t := by
  have hlt := h.2
  have hpos := h.1.width_pos
  have hbit : ∀ i, i < bits + t.width → mkExtract i i (zeroExtend bits t) =
      if i < t.width then mkExtract i i t else zero 1 := by
    intro i hi
    rw [mkExtract.eq_def, if_neg]
    · simp only [Nat.sub_self]
      split
      · rfl
      · rename_i hout
        rw [if_pos (Nat.not_lt.1 hout)]
    · rw [width_zeroExtend hlt]
      omega
  rw [singleBits, width_zeroExtend hlt, map_range_add]
  congr 1
  · refine List.map_congr_left fun i hi => ?_
    have hi : i < bits := List.mem_range.1 (List.mem_reverse.1 hi)
    have hzero : (extract i i (zero bits)).WellFormed :=
      ⟨wellFormed_zero ⟨by omega, by omega⟩, Nat.le_refl i, hi⟩
    rw [hbit _ (by omega), if_neg (by omega), zero, zero, mkExtract_lit hzero, Nat.zero_shiftRight,
      Nat.zero_mod, Nat.sub_self]
  · refine List.map_congr_left fun i hi => ?_
    have hi : i < t.width := List.mem_range.1 (List.mem_reverse.1 hi)
    rw [hbit _ (by omega), if_pos hi]

mutual

theorem singleBits_eq : ∀ (t : Term), t.WellFormed → t.Normal →
    singleBits t = (segments t).flatMap singleBits
  | concat ts, h, hn => by
    rw [singleBits_concat h hn, segments, flatMap_singleBits ts h.2.1 hn.1]
  | zeroExtend bits t, h, hn => by
    rw [singleBits_zeroExtend h hn.2.1, segments, List.flatMap_cons, singleBits_eq t h.1 hn.1]
  | lit _ _, _, _ | sym _ _, _, _ | unary _ _, _, _ | binary _ _ _, _, _ | compare _ _ _, _, _
  | extract _ _ _, _, _ | signExtend _ _, _, _ | apply _ _ _, _, _ | select _ _ _, _, _ =>
    (List.append_nil _).symm

theorem flatMap_singleBits : ∀ (ts : List Term), AllWellFormed ts → AllNormal ts →
    ts.flatMap singleBits = (segmentsList ts).flatMap singleBits
  | [], _, _ => rfl
  | t :: ts, h, hn => by
    rw [List.flatMap_cons, singleBits_eq t h.1 hn.1, flatMap_singleBits ts h.2 hn.2, segmentsList,
      List.flatMap_append]

end

theorem foldl_pushPart_flatMap : ∀ (ss stack : List Term), (∀ s ∈ ss, Segment s) →
    AllWellFormed stack → totalWidth stack + totalWidth ss < Width.limit →
      (ss.flatMap singleBits).foldl pushPart stack = ss.foldl pushPart stack
  | [], _, _, _, _ => rfl
  | s :: ss, stack, hss, hstack, hlt => by
    have hs := hss s List.mem_cons_self
    rw [totalWidth_cons] at hlt
    have hpush := pushPart_replaces hstack hs.wellFormed (by omega)
    have hcount := hpush.totalWidth_eq
    rw [totalWidth_reverse, totalWidth_append, totalWidth_reverse, totalWidth_cons, totalWidth_nil]
      at hcount
    rw [List.flatMap_cons, List.foldl_append, List.foldl_cons,
      foldl_pushPart_singleBits hs.wellFormed hs.normal hs.atomic hstack]
    exact foldl_pushPart_flatMap ss (pushPart stack s)
      (fun u hu => hss u (List.mem_cons_of_mem _ hu))
      (allWellFormed_reverse.1 hpush.wellFormed) (by omega)

theorem Segment.isConcat (h : Segment t) : t.isConcat = false := (isAtomic_iff.1 h.atomic).1

/-- Putting the bits together is putting the segments together. -/
theorem mkConcat_singleBits (h : t.WellFormed) (hn : t.Normal) :
    mkConcat (singleBits t) = mkConcat (segments t) := by
  have hseg := segments_segment t h hn
  have hbits : (singleBits t).flatMap flatten = singleBits t := by
    refine flatMap_flatten_of_flat fun b hb => ?_
    obtain ⟨i, hi, rfl⟩ := List.mem_map.1 hb
    exact isConcat_bit h hn (List.mem_range.1 (List.mem_reverse.1 hi))
  have hflat : (segments t).flatMap flatten = segments t :=
    flatMap_flatten_of_flat fun s hs => (hseg s hs).isConcat
  have hlt : totalWidth [] + totalWidth (segments t) < Width.limit := by
    rw [totalWidth_nil, Nat.zero_add, totalWidth_segments t h]
    exact h.width_lt
  have hjoin : joinParts (singleBits t) = joinParts (segments t) := by
    rw [joinParts, joinParts, hbits, hflat, singleBits_eq t h hn,
      foldl_pushPart_flatMap _ [] hseg trivial hlt]
  rw [mkConcat, hjoin, mkConcat]

/-! ## Which terms come back -/

/-- Whether every zero extension that an extraction meets is the one that the rules for
concatenations make: there is none among the parts of a concatenation, and none over a concatenation
that begins with a literal. -/
def isSeamless : Term → Bool
  | concat ts => ts.all fun t => !t.isZeroExtend
  | zeroExtend _ (concat ts) => (ts.all fun t => !t.isZeroExtend) && !ts.head?.any isLit
  | _ => true

theorem isSeamless_of_atomic (h : t.isAtomic = true) : t.isSeamless = true := by
  cases t with
  | concat => cases h
  | zeroExtend => cases h
  | _ => rfl

theorem forall_foldl_pushPart {P : Term → Prop}
    (hjoin : ∀ {u t s}, P u → P t → join? u t = some s → P s) :
    ∀ (ts stack : List Term), (∀ t ∈ stack, P t) → (∀ t ∈ ts, P t) →
      ∀ t ∈ ts.foldl pushPart stack, P t
  | [], _, hstack, _ => hstack
  | t :: ts, stack, hstack, hts => by
    have ht := hts t List.mem_cons_self
    have hpush : ∀ s ∈ pushPart stack t, P s := by
      fun_cases pushPart stack t with
      | case1 => simpa using ht
      | case2 last rest u hu =>
        rw [List.forall_mem_cons] at hstack ⊢
        exact ⟨hjoin hstack.1 ht hu, hstack.2⟩
      | case3 last rest => exact List.forall_mem_cons.2 ⟨ht, hstack⟩
    exact forall_foldl_pushPart hjoin ts _ hpush fun u hu => hts u (List.mem_cons_of_mem _ hu)

theorem join?_atomic {s u : Term} (hu : u.Normal) (hs : join? u t = some s) :
    s.isAtomic = true := by
  revert hs
  fun_cases join? u t with
  | case1 =>
    rintro ⟨⟩
    rfl
  | case2 high low x high' low' x' =>
    rintro ⟨⟩
    exact isAtomic_slice hu.2.1
  | case3 | case4 => rintro ⟨⟩

theorem joinParts_atomic (h : ∀ s ∈ ts, Segment s) : ∀ s ∈ joinParts ts, s.isAtomic = true := by
  have hfold := forall_foldl_pushPart (P := fun t => t.Normal ∧ t.isAtomic = true)
    (fun hu _ hs => ⟨(join?_normal hs hu.1).1, join?_atomic hu.1 hs⟩) ts [] (by simp)
    fun s hs => ⟨(h s hs).normal, (h s hs).atomic⟩
  rw [joinParts, flatMap_flatten_of_flat fun s hs => (h s hs).isConcat]
  exact fun s hs => (hfold s (List.mem_reverse.1 hs)).2

/-- A zero extension over what a leading zero leaves. -/
theorem isSeamless_mkZeroExtend (hpos : 0 < k) (h : t.isAtomic = true) :
    (mkZeroExtend k t).isSeamless = true := by
  fun_cases mkZeroExtend k t with
  | case1 => exact absurd ‹k = 0› (Nat.ne_of_gt hpos)
  | case2 => rfl
  | case3 => cases h
  | case4 =>
    cases t with
    | concat => cases h
    | zeroExtend => cases h
    | _ => rfl

/-- What is put together from segments is seamless. -/
theorem isSeamless_mkConcat (h : ∀ s ∈ ts, Segment s) (hlt : totalWidth ts < Width.limit) :
    (mkConcat ts).isSeamless = true := by
  have hwf := (joinParts_replaces (allWellFormed_iff.2 fun s hs => (h s hs).wellFormed)
    hlt).wellFormed
  have hatomic := joinParts_atomic h
  have hall : ∀ us : List Term, (∀ u ∈ us, u ∈ joinParts ts) →
      (us.all fun u => !u.isZeroExtend) = true := by
    intro us hus
    refine List.all_eq_true.2 fun u hu => ?_
    simp [(isAtomic_iff.1 (hatomic u (hus u hu))).2]
  have hred := joinParts_reduced (allNormal_iff.2 fun s hs => (h s hs).normal)
  fun_cases mkConcat ts with
  | case1 t hj => exact isSeamless_of_atomic (hatomic t (by simp [hj]))
  | case2 t u hj =>
    rw [hj] at hwf
    exact isSeamless_mkZeroExtend hwf.1.width_pos (hatomic u (by simp [hj]))
  | case4 t us hnil hone hj hzero =>
    rw [hj] at hwf hred
    have hrest := hall us fun u hu => by
      rw [hj]
      exact List.mem_cons_of_mem _ hu
    have hhead : us.head?.any isLit = false := by
      cases us with
      | nil => rfl
      | cons u us =>
        have hjoin := hred.apart.1
        cases t with
        | lit =>
          cases u with
          | lit => cases hjoin
          | _ => rfl
        | _ => cases hzero
    have hext : mkZeroExtend t.width (concat us) = zeroExtend t.width (concat us) :=
      if_neg (Nat.ne_of_gt hwf.1.width_pos)
    simp [hext, isSeamless, hrest, hhead]
  | case3 t u hj | case5 t us _ _ hj => exact hall _ fun s hs => hj ▸ hs
  | case6 => rfl

theorem segmentsList_of_atomic : ∀ {ts : List Term}, (∀ t ∈ ts, t.isAtomic = true) →
    segmentsList ts = ts
  | [], _ => rfl
  | t :: ts, h => by
    rw [segmentsList, segments_of_atomic (h t List.mem_cons_self),
      segmentsList_of_atomic fun u hu => h u (List.mem_cons_of_mem _ hu), List.singleton_append]

theorem segments_concat (hn : (concat ts).Normal) (h : (ts.all fun t => !t.isZeroExtend) = true) :
    segments (concat ts) = ts := by
  refine segmentsList_of_atomic fun t ht => isAtomic_iff.2 ⟨hn.2.flat t ht, ?_⟩
  simpa using List.all_eq_true.1 h t ht

/-- A zero that the first part is not joined to. -/
theorem apart_zero_cons (h : Apart ts) (hhead : ts.head?.any isLit = false) :
    Apart (zero k :: ts) := by
  cases ts with
  | nil => trivial
  | cons u us =>
    refine ⟨?_, h⟩
    cases u with
    | lit => cases hhead
    | _ => rfl

theorem mkConcat_segments (h : t.Normal) (hs : t.isSeamless = true) :
    mkConcat (segments t) = t := by
  cases t with
  | concat ts => rw [segments_concat h hs, mkConcat_of_joined h.2]
  | zeroExtend bits x =>
    have hext := mkZeroExtend_of_normal h
    cases x with
    | concat ts =>
      simp only [isSeamless, Bool.and_eq_true, Bool.not_eq_true'] at hs
      have hflat : ∀ t ∈ zero bits :: ts, t.isConcat = false :=
        List.forall_mem_cons.2 ⟨rfl, h.1.2.flat⟩
      have hjoin := joinParts_of_apart hflat (apart_zero_cons h.1.2.apart hs.2)
      have hlen := h.1.2.two_le
      rw [segments, segments_concat h.1 hs.1]
      match ts, hlen, hjoin, hext with
      | t :: u :: us, _, hjoin, hext =>
        rw [mkConcat, hjoin]
        exact hext
    | lit => cases h.2.2.1
    | zeroExtend => cases h.2.2.2
    | _ => exact hext
  | _ => exact mkConcat_singleton rfl

theorem mkConcat_segments_eq_iff (h : t.WellFormed) (hn : t.Normal) :
    mkConcat (segments t) = t ↔ t.isSeamless = true := by
  constructor
  · intro heq
    rw [← heq]
    refine isSeamless_mkConcat (segments_segment t h hn) ?_
    rw [totalWidth_segments t h]
    exact h.width_lt
  · exact mkConcat_segments hn

/-- Single bits are as many as they are wide together. -/
theorem bits_fill (h : t.Regular) : ∀ (is : List Nat), (∀ i ∈ is, i < t.width) →
    AllRegular (is.map fun i => mkExtract i i t)
      ∧ totalWidth (is.map fun i => mkExtract i i t) = is.length
  | [], _ => ⟨trivial, rfl⟩
  | i :: is, his => by
    rw [List.forall_mem_cons] at his
    have hbit := mkExtract_fills_bit h his.1
    have hw : (mkExtract i i t).width = 1 := hbit.width_eq
    obtain ⟨hbits, hcount⟩ := bits_fill h is his.2
    refine ⟨⟨hbit.regular, hbits⟩, ?_⟩
    rw [List.map_cons, totalWidth_cons, hw, hcount, List.length_cons, Nat.add_comm]

theorem singleBits_regular (h : t.Regular) : (concat (singleBits t)).Regular := by
  obtain ⟨hpos, hlt⟩ := h.valid
  obtain ⟨hbits, hcount⟩ := bits_fill h (List.range t.width).reverse
    fun i hi => List.mem_range.1 (List.mem_reverse.1 hi)
  rw [List.length_reverse, List.length_range] at hcount
  refine ⟨fun hnil => ?_, hbits, by rw [singleBits, hcount]; exact hlt⟩
  rw [singleBits] at hnil
  rw [hnil, totalWidth_nil] at hcount
  omega

end Term

namespace Value

variable {v : Value}

theorem mapM_bitAt (hv : v.term.Regular) : ∀ (is : List Nat), (∀ i ∈ is, i < v.width) →
    is.mapM v.bitAt = .ok (is.map fun i => ⟨.mkExtract i i v.term⟩)
  | [], _ => rfl
  | i :: is, h => by
    have hbit := extract_eq hv (Nat.le_refl i) (h i List.mem_cons_self)
    rw [List.mapM_cons, bitAt, hbit, mapM_bitAt hv is fun j hj => h j (List.mem_cons_of_mem _ hj)]
    rfl

/-- The concatenation of all bits of a value, the top one first. -/
theorem concat_bitAt (h : v.term.WellFormed) :
    ((List.range v.width).reverse.mapM v.bitAt >>= concat)
      = .ok ⟨.mkConcat (Term.singleBits v.term)⟩ := by
  have hbits : (((List.range v.width).reverse.map fun i => (⟨.mkExtract i i v.term⟩ : Value)).map
      Value.term) = Term.singleBits v.term := List.map_map
  rw [mapM_bitAt h.regular _ fun i hi => List.mem_range.1 (List.mem_reverse.1 hi), ← hbits]
  exact concat_eq (hbits ▸ Term.singleBits_regular h.regular)

end Value

namespace Term

/-- The single bits of a term in normal form give the term back exactly when it is seamless, whether
they are put together as terms or as values. -/
theorem mkConcat_singleBits_eq_iff {t : Term} (h : t.WellFormed) (hn : t.normalize = t) :
    (mkConcat (singleBits t) = t ↔ t.isSeamless = true) ∧
      ((List.range t.width).reverse.mapM (Value.bitAt ⟨t⟩) >>= Value.concat)
        = .ok ⟨mkConcat (singleBits t)⟩ := by
  have hnormal : t.Normal := hn ▸ normalize_normal t h
  refine ⟨?_, Value.concat_bitAt (v := ⟨t⟩) h⟩
  rw [mkConcat_singleBits h hnormal]
  exact mkConcat_segments_eq_iff h hnormal

/-- Zeros above a concatenation that begins with a symbol and holds a literal and an extraction. -/
theorem mkConcat_singleBits_extended :
    let t := zeroExtend 3 (concat [sym "a" 2, lit 5 4, extract 6 4 (sym "x" 8)])
    t.WellFormed ∧ t.normalize = t ∧ mkConcat (singleBits t) = t :=
  ⟨by decide, by rfl, (mkConcat_singleBits_eq_iff (by decide) (by rfl)).1.2 rfl⟩

/-- A zero extension below another part comes back as a literal zero. -/
theorem mkConcat_singleBits_ne :
    let t := concat [sym "a" 8, zeroExtend 8 (sym "b" 8)]
    t.WellFormed ∧ t.normalize = t ∧
      mkConcat (singleBits t) = concat [sym "a" 8, lit 0 8, sym "b" 8] ∧
        mkConcat (singleBits t) ≠ t :=
  ⟨by decide, by rfl, by rfl, by decide⟩

end Term

end SymWord
