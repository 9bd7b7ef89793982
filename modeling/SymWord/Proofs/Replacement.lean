import SymWord.Proofs.Denotation

/-!
# Replacements

One term replaces another when nothing is lost by putting it there: it is well-formed, has the same
width, stands for the same number under every interpretation, and mentions no name that the other
does not. Replacements can be chained and carried through every kind of node, so a rule is sound
once its result replaces the node it was applied to.

The parts of a concatenation may also be replaced by a list of another length.
-/

namespace SymWord

namespace Term

structure Replaces (s t : Term) : Prop where
  wellFormed : s.WellFormed
  width_eq : s.width = t.width
  denote_eq : ∀ I, s.denote I = t.denote I
  mentions_subset : s.mentions ⊆ t.mentions

/-- The same terms one by one. -/
structure ReplacesList (ss ts : List Term) : Prop where
  wellFormed : AllWellFormed ss
  widths_eq : ss.map width = ts.map width
  denoteList_eq : ∀ I, denoteList I ss = denoteList I ts
  mentions_subset : listMentions ss ⊆ listMentions ts

/-- The same bits when put together. -/
structure ReplacesParts (ss ts : List Term) : Prop where
  wellFormed : AllWellFormed ss
  totalWidth_eq : totalWidth ss = totalWidth ts
  denote_eq : ∀ I, (concat ss).denote I = (concat ts).denote I
  mentions_subset : listMentions ss ⊆ listMentions ts

theorem allWellFormed_append {ss ts : List Term} :
    AllWellFormed (ss ++ ts) ↔ AllWellFormed ss ∧ AllWellFormed ts := by
  simp only [allWellFormed_iff, List.mem_append, or_imp, forall_and]

theorem allWellFormed_reverse {ts : List Term} : AllWellFormed ts.reverse ↔ AllWellFormed ts := by
  simp only [allWellFormed_iff, List.mem_reverse]

theorem listMentions_append (ss ts : List Term) :
    listMentions (ss ++ ts) = listMentions ss ++ listMentions ts := by
  induction ss with
  | nil => rfl
  | cons s ss ih => rw [List.cons_append, listMentions, ih, listMentions, List.append_assoc]

namespace Replaces

variable {s t u l l' r r' : Term}

theorem refl (h : t.WellFormed) : Replaces t t := ⟨h, rfl, fun _ => rfl, List.Subset.refl _⟩

theorem trans (h : Replaces s t) (h' : Replaces t u) : Replaces s u where
  wellFormed := h.wellFormed
  width_eq := h.width_eq.trans h'.width_eq
  denote_eq I := (h.denote_eq I).trans (h'.denote_eq I)
  mentions_subset := List.Subset.trans h.mentions_subset h'.mentions_subset

protected theorem unary (op : UnaryOp) (h : Replaces s t) :
    Replaces (.unary op s) (.unary op t) where
  wellFormed := h.wellFormed
  width_eq := h.width_eq
  denote_eq I := by rw [denote, denote, h.denote_eq, h.width_eq]
  mentions_subset := h.mentions_subset

theorem append_subset {as bs as' bs' : List Declaration} (h : as ⊆ as') (h' : bs ⊆ bs') :
    as ++ bs ⊆ as' ++ bs' := by
  intro d hd
  rcases List.mem_append.1 hd with hd | hd
  · exact List.mem_append_left _ (h hd)
  · exact List.mem_append_right _ (h' hd)

protected theorem binary (op : BinaryOp) (hl : Replaces l l') (hr : Replaces r r')
    (hw : l'.width = r'.width) : Replaces (.binary op l r) (.binary op l' r') where
  wellFormed := ⟨hl.wellFormed, hr.wellFormed, by rw [hl.width_eq, hr.width_eq, hw]⟩
  width_eq := hl.width_eq
  denote_eq I := by rw [denote, denote, hl.denote_eq, hr.denote_eq, hl.width_eq]
  mentions_subset := append_subset hl.mentions_subset hr.mentions_subset

protected theorem compare (op : Comparison) (hl : Replaces l l') (hr : Replaces r r')
    (hw : l'.width = r'.width) : Replaces (.compare op l r) (.compare op l' r') where
  wellFormed := ⟨hl.wellFormed, hr.wellFormed, by rw [hl.width_eq, hr.width_eq, hw]⟩
  width_eq := rfl
  denote_eq I := by rw [denote, denote, hl.denote_eq, hr.denote_eq, hl.width_eq]
  mentions_subset := append_subset hl.mentions_subset hr.mentions_subset

protected theorem extract {high low : Nat} (h : Replaces s t) (hle : low ≤ high)
    (hlt : high < t.width) : Replaces (.extract high low s) (.extract high low t) where
  wellFormed := ⟨h.wellFormed, hle, by rw [h.width_eq]; exact hlt⟩
  width_eq := rfl
  denote_eq I := by rw [denote, denote, h.denote_eq]
  mentions_subset := h.mentions_subset

protected theorem zeroExtend {bits : Nat} (h : Replaces s t) (hb : bits + t.width < Width.limit) :
    Replaces (.zeroExtend bits s) (.zeroExtend bits t) where
  wellFormed := ⟨h.wellFormed, by rw [h.width_eq]; exact hb⟩
  width_eq := by rw [width, width, h.width_eq]
  denote_eq I := by rw [denote, denote, h.denote_eq]
  mentions_subset := h.mentions_subset

protected theorem signExtend {bits : Nat} (h : Replaces s t) (hb : bits + t.width < Width.limit) :
    Replaces (.signExtend bits s) (.signExtend bits t) where
  wellFormed := ⟨h.wellFormed, by rw [h.width_eq]; exact hb⟩
  width_eq := by rw [width, width, h.width_eq]
  denote_eq I := by rw [denote, denote, h.denote_eq, h.width_eq]
  mentions_subset := h.mentions_subset

protected theorem select {a : String} {w : Nat} (h : Replaces s t) (hw : Width.Valid w) :
    Replaces (.select a s w) (.select a t w) where
  wellFormed := ⟨h.wellFormed, hw⟩
  width_eq := rfl
  denote_eq I := by rw [denote, denote, h.denote_eq, h.width_eq]
  mentions_subset := by
    rw [mentions, mentions, h.width_eq]
    exact List.cons_subset_cons _ h.mentions_subset

protected theorem apply {f : String} {ss ts : List Term} {w : Nat} (h : ReplacesList ss ts)
    (hw : Width.Valid w) : Replaces (.apply f ss w) (.apply f ts w) where
  wellFormed := ⟨h.wellFormed, hw⟩
  width_eq := rfl
  denote_eq I := by rw [denote, denote, h.denoteList_eq, h.widths_eq]
  mentions_subset := by
    rw [mentions, mentions, h.widths_eq]
    exact List.cons_subset_cons _ h.mentions_subset

/-- A list with bits in it is not empty. -/
protected theorem concat {ss ts : List Term} (h : ReplacesParts ss ts)
    (ht : (concat ts).WellFormed) : Replaces (.concat ss) (.concat ts) where
  wellFormed := by
    refine ⟨?_, h.wellFormed, h.totalWidth_eq ▸ ht.2.2⟩
    rintro rfl
    have hpos := ht.width_pos
    rw [width_concat, ← h.totalWidth_eq, totalWidth_nil] at hpos
    omega
  width_eq := by
    rw [width_concat, width_concat, h.totalWidth_eq]
  denote_eq := h.denote_eq
  mentions_subset := h.mentions_subset

end Replaces

theorem ReplacesList.nil : ReplacesList [] [] :=
  ⟨trivial, rfl, fun _ => rfl, List.Subset.refl _⟩

theorem ReplacesList.cons {s t : Term} {ss ts : List Term} (h : Replaces s t)
    (hs : ReplacesList ss ts) : ReplacesList (s :: ss) (t :: ts) where
  wellFormed := ⟨h.wellFormed, hs.wellFormed⟩
  widths_eq := by rw [List.map_cons, List.map_cons, h.width_eq, hs.widths_eq]
  denoteList_eq I := by rw [denoteList, denoteList, h.denote_eq, hs.denoteList_eq]
  mentions_subset := Replaces.append_subset h.mentions_subset hs.mentions_subset

theorem denoteParts_congr {I : Interpretation} : ∀ {ss ts : List Term} (high : Nat),
    ss.map width = ts.map width → denoteList I ss = denoteList I ts →
      denoteParts I high ss = denoteParts I high ts
  | [], [], _, _, _ => rfl
  | [], _ :: _, _, h, _ => by simp at h
  | _ :: _, [], _, h, _ => by simp at h
  | s :: ss, t :: ts, high, h, h' => by
    simp only [List.map_cons, List.cons.injEq] at h
    simp only [denoteList, List.cons.injEq] at h'
    rw [denoteParts, denoteParts, h.1, h'.1]
    exact denoteParts_congr _ h.2 h'.2

theorem ReplacesList.parts {ss ts : List Term} (h : ReplacesList ss ts) : ReplacesParts ss ts where
  wellFormed := h.wellFormed
  totalWidth_eq := totalWidth_congr h.widths_eq
  denote_eq I := by
    rw [denote, denote]
    exact denoteParts_congr 0 h.widths_eq (h.denoteList_eq I)
  mentions_subset := h.mentions_subset

namespace ReplacesParts

variable {ss ts us vs : List Term}

theorem refl (h : AllWellFormed ts) : ReplacesParts ts ts :=
  ⟨h, rfl, fun _ => rfl, List.Subset.refl _⟩

theorem trans (h : ReplacesParts ss ts) (h' : ReplacesParts ts us) : ReplacesParts ss us where
  wellFormed := h.wellFormed
  totalWidth_eq := h.totalWidth_eq.trans h'.totalWidth_eq
  denote_eq I := (h.denote_eq I).trans (h'.denote_eq I)
  mentions_subset := List.Subset.trans h.mentions_subset h'.mentions_subset

protected theorem append (h : ReplacesParts ss ts) (h' : ReplacesParts us vs) :
    ReplacesParts (ss ++ us) (ts ++ vs) where
  wellFormed := allWellFormed_append.2 ⟨h.wellFormed, h'.wellFormed⟩
  totalWidth_eq := by rw [totalWidth_append, totalWidth_append, h.totalWidth_eq, h'.totalWidth_eq]
  denote_eq I := by
    rw [denote_concat_append, denote_concat_append, h.denote_eq, h'.denote_eq, h'.totalWidth_eq]
  mentions_subset := by
    rw [listMentions_append, listMentions_append]
    exact Replaces.append_subset h.mentions_subset h'.mentions_subset

theorem singleton {s t : Term} (h : Replaces s t) : ReplacesParts [s] [t] :=
  (ReplacesList.nil.cons h).parts

end ReplacesParts

section Rules

variable {t : Term}

theorem replaces_const {v : Nat} (ht : t.WellFormed) (hv : ∀ I, t.denote I = v)
    (hlt : v < 2 ^ t.width) : Replaces (const v t.width) t where
  wellFormed := wellFormed_const ht.valid
  width_eq := rfl
  denote_eq I := by rw [const, denote, Word.truncate_of_lt hlt, hv]
  mentions_subset := List.nil_subset _

theorem replaces_zero (ht : t.WellFormed) (h : ∀ I, t.denote I = 0) :
    Replaces (zero t.width) t where
  wellFormed := wellFormed_zero ht.valid
  width_eq := rfl
  denote_eq I := (h I).symm
  mentions_subset := List.nil_subset _

/-- One part alone is its own concatenation. -/
theorem replaces_concat_singleton (h : t.WellFormed) : Replaces t (concat [t]) where
  wellFormed := h
  width_eq := by simp [width_concat]
  denote_eq I := (denote_concat_singleton I t).symm
  mentions_subset := by simp [mentions, listMentions]

theorem concat_singleton_replaces (h : t.WellFormed) : Replaces (concat [t]) t where
  wellFormed := ⟨by simp, ⟨h, trivial⟩, by simpa using h.width_lt⟩
  width_eq := (replaces_concat_singleton h).width_eq.symm
  denote_eq I := denote_concat_singleton I t
  mentions_subset := by simp [mentions, listMentions]

end Rules

end Term

end SymWord
