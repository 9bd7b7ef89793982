import SymWord.Proofs.CanonicalValues

/-!
# Names in results

No rule makes up a name: whatever holds of all names in the operands of a node holds of all names in
what the rules make of it, and so of all names in the result of a call. Nothing is asked of the
terms here. They need not be well-formed, so a width that has gone round does not bring in names
either.
-/

namespace SymWord

namespace Term

/-- All names in the term have the property. -/
def NamedBy (p : String → Prop) (t : Term) : Prop := ∀ d ∈ t.mentions, p d.name

variable {p : String → Prop} {s t u l r : Term} {ts stack : List Term} {n : String}
variable {v w c cw bits high low : Nat}

/-! ## Plain nodes -/

@[simp] theorem namedBy_lit : (lit v w).NamedBy p := by simp [NamedBy, mentions]

@[simp] theorem namedBy_sym : (sym n w).NamedBy p ↔ p n := by
  simp [NamedBy, mentions, Declaration.name]

@[simp] theorem namedBy_unary {op : UnaryOp} : (unary op t).NamedBy p ↔ t.NamedBy p := Iff.rfl

@[simp] theorem namedBy_binary {op : BinaryOp} :
    (binary op l r).NamedBy p ↔ l.NamedBy p ∧ r.NamedBy p := by
  simp only [NamedBy, mentions, List.mem_append, or_imp, forall_and]

@[simp] theorem namedBy_compare {op : Comparison} :
    (compare op l r).NamedBy p ↔ l.NamedBy p ∧ r.NamedBy p := by
  simp only [NamedBy, mentions, List.mem_append, or_imp, forall_and]

@[simp] theorem namedBy_extract : (extract high low t).NamedBy p ↔ t.NamedBy p := Iff.rfl

@[simp] theorem namedBy_zeroExtend : (zeroExtend bits t).NamedBy p ↔ t.NamedBy p := Iff.rfl

@[simp] theorem namedBy_signExtend : (signExtend bits t).NamedBy p ↔ t.NamedBy p := Iff.rfl

theorem forall_mem_listMentions {q : Declaration → Prop} (ts : List Term) :
    (∀ d ∈ listMentions ts, q d) ↔ ∀ t ∈ ts, ∀ d ∈ t.mentions, q d := by
  induction ts with
  | nil => simp [listMentions]
  | cons t ts ih =>
    simp only [listMentions, List.mem_append, or_imp, forall_and, List.forall_mem_cons, ih]

@[simp] theorem namedBy_concat : (concat ts).NamedBy p ↔ ∀ t ∈ ts, t.NamedBy p :=
  forall_mem_listMentions ts

@[simp] theorem namedBy_apply : (apply n ts w).NamedBy p ↔ p n ∧ ∀ t ∈ ts, t.NamedBy p := by
  rw [NamedBy, mentions, List.forall_mem_cons, forall_mem_listMentions]
  rfl

@[simp] theorem namedBy_select : (select n t w).NamedBy p ↔ p n ∧ t.NamedBy p := by
  rw [NamedBy, mentions, List.forall_mem_cons]
  rfl

@[simp] theorem namedBy_const : (const v w).NamedBy p := namedBy_lit

@[simp] theorem namedBy_zero : (zero w).NamedBy p := namedBy_lit

@[simp] theorem namedBy_ofBool {b : Bool} : (ofBool b).NamedBy p := namedBy_lit

/-! ## Operators -/

theorem NamedBy.mkUnary {op : UnaryOp} (h : t.NamedBy p) : (mkUnary op t).NamedBy p := by
  fun_cases Term.mkUnary op t <;> simp_all

theorem NamedBy.trivial? {op : BinaryOp} (h : t.NamedBy p)
    (hu : trivial? op w t c cw = some u) : u.NamedBy p := by
  revert hu
  fun_cases Term.trivial? op w t c cw <;> rintro ⟨⟩ <;>
    first | exact h | exact h.mkUnary | exact namedBy_lit

theorem NamedBy.mkBinaryLit {op : BinaryOp} (h : t.NamedBy p) :
    (mkBinaryLit op w t c cw).NamedBy p := by
  fun_induction Term.mkBinaryLit op w t c cw with
  | case1 => exact namedBy_lit
  | case2 w c cw op' x d dw u hu => exact h.trivial? hu
  | case3 w c cw op' x d dw _ hop ih => exact ih (namedBy_binary.1 h).1
  | case4 => exact namedBy_binary.2 ⟨h, namedBy_lit⟩
  | case5 w c cw t _ _ u hu => exact h.trivial? hu
  | case6 => exact namedBy_binary.2 ⟨h, namedBy_lit⟩

theorem NamedBy.mkLitBinary {op : BinaryOp} (h : t.NamedBy p) :
    (mkLitBinary op c cw t).NamedBy p := by
  fun_cases Term.mkLitBinary op c cw t <;>
    first | exact h.mkUnary | exact namedBy_lit | exact namedBy_binary.2 ⟨namedBy_lit, h⟩

theorem NamedBy.mkBinary {op : BinaryOp} (hl : l.NamedBy p) (hr : r.NamedBy p) :
    (mkBinary op l r).NamedBy p := by
  fun_cases Term.mkBinary op l r with
  | case1 => exact namedBy_lit
  | case2 => exact hr.mkBinaryLit
  | case3 => exact hr.mkLitBinary
  | case4 | case5 => exact hl.mkBinaryLit
  | case6 | case7 => exact namedBy_lit
  | case8 | case9 => exact hl
  | case10 | case11 => exact namedBy_binary.2 ⟨hl, hr⟩

theorem NamedBy.compareLit {op : Comparison} (h : t.NamedBy p) :
    (compareLit op t c cw).NamedBy p := by
  fun_cases Term.compareLit op t c cw with
  | case1 => exact h
  | case2 => exact h.mkUnary
  | case3 => exact namedBy_compare.2 ⟨h, namedBy_lit⟩

theorem NamedBy.mkCompareLit {op : Comparison} (h : t.NamedBy p) :
    (mkCompareLit op t c cw).NamedBy p := by
  fun_induction Term.mkCompareLit op t c cw with
  | case1 => exact namedBy_lit
  | case2 c cw x d dw hop ih | case4 c cw x d dw hop ih => exact ih (namedBy_binary.1 h).1
  | case6 c cw u x hop ih => exact ih h
  | case3 | case5 | case7 | case8 => exact h.compareLit

theorem NamedBy.mkCompare {op : Comparison} (hl : l.NamedBy p) (hr : r.NamedBy p) :
    (mkCompare op l r).NamedBy p := by
  fun_cases Term.mkCompare op l r with
  | case1 | case4 => exact namedBy_lit
  | case2 => exact hr.mkCompareLit
  | case3 => exact hl.mkCompareLit
  | case5 => exact namedBy_compare.2 ⟨hl, hr⟩

/-! ## Slices -/

theorem NamedBy.mkZeroExtend (h : t.NamedBy p) : (mkZeroExtend bits t).NamedBy p := by
  fun_cases Term.mkZeroExtend bits t with
  | case1 | case3 | case4 => exact h
  | case2 => exact namedBy_lit

theorem NamedBy.mkSignExtend (h : t.NamedBy p) : (mkSignExtend bits t).NamedBy p := by
  unfold Term.mkSignExtend
  split
  · exact h
  · split
    · exact namedBy_lit
    · exact h

theorem NamedBy.join? (ht : t.NamedBy p) (hs : join? t u = some s) : s.NamedBy p := by
  revert hs
  fun_cases Term.join? t u with
  | case1 =>
    rintro ⟨⟩
    exact namedBy_lit
  | case2 high low x high' low' =>
    rintro ⟨⟩
    unfold slice
    split <;> exact ht
  | case3 | case4 => rintro ⟨⟩

theorem namedBy_pushPart (hstack : ∀ s ∈ stack, s.NamedBy p) (ht : t.NamedBy p) :
    ∀ s ∈ pushPart stack t, s.NamedBy p := by
  fun_cases pushPart stack t with
  | case1 => simpa using ht
  | case2 last rest u hu =>
    rw [List.forall_mem_cons] at hstack ⊢
    exact ⟨hstack.1.join? hu, hstack.2⟩
  | case3 last rest => exact List.forall_mem_cons.2 ⟨ht, hstack⟩

theorem namedBy_foldl_pushPart : ∀ (ts : List Term) {stack : List Term},
    (∀ s ∈ stack, s.NamedBy p) → (∀ t ∈ ts, t.NamedBy p) →
      ∀ s ∈ ts.foldl pushPart stack, s.NamedBy p
  | [], _, hstack, _ => hstack
  | t :: ts, _, hstack, h => by
    rw [List.forall_mem_cons] at h
    exact namedBy_foldl_pushPart ts (namedBy_pushPart hstack h.1) h.2

theorem NamedBy.flatten (h : t.NamedBy p) : ∀ s ∈ flatten t, s.NamedBy p := by
  fun_cases Term.flatten t with
  | case1 => exact namedBy_concat.1 h
  | case2 => simpa using h

theorem namedBy_mkConcat (h : ∀ t ∈ ts, t.NamedBy p) : (mkConcat ts).NamedBy p := by
  have hopened : ∀ s ∈ ts.flatMap flatten, s.NamedBy p := by
    intro s hs
    obtain ⟨t, ht, hs⟩ := List.mem_flatMap.1 hs
    exact (h t ht).flatten s hs
  have hjoined : ∀ s ∈ joinParts ts, s.NamedBy p := fun s hs =>
    namedBy_foldl_pushPart _ (by simp) hopened s (List.mem_reverse.1 hs)
  fun_cases mkConcat ts with
  | case1 t heq =>
    rw [heq] at hjoined
    exact hjoined t List.mem_cons_self
  | case2 t u heq hzero =>
    rw [heq] at hjoined
    exact (hjoined u (List.mem_cons_of_mem _ List.mem_cons_self)).mkZeroExtend
  | case4 t us hne _ heq hzero =>
    rw [heq] at hjoined
    exact (namedBy_concat.2 fun s hs => hjoined s (List.mem_cons_of_mem _ hs)).mkZeroExtend
  | case3 _ _ heq | case5 _ _ _ _ heq | case6 heq =>
    rw [heq] at hjoined
    exact namedBy_concat.2 hjoined

mutual

theorem NamedBy.mkExtract : ∀ {t : Term} {high low : Nat}, t.NamedBy p →
    (mkExtract high low t).NamedBy p := by
  intro t high low h
  rw [mkExtract.eq_def]
  split
  · exact h
  match t, h with
  | lit _ _, _ => exact namedBy_lit
  | extract _ _ x, h => exact NamedBy.mkExtract (t := x) h
  | concat ts, h => exact namedBy_mkConcat (namedBy_pieces ts (namedBy_concat.1 h))
  | zeroExtend _ x, h =>
    have hx : x.NamedBy p := h
    simp only
    split
    · exact NamedBy.mkExtract hx
    · split
      · exact namedBy_lit
      · refine namedBy_mkConcat (List.forall_mem_cons.2 ⟨namedBy_lit, ?_⟩)
        exact List.forall_mem_singleton.2 (NamedBy.mkExtract hx)
  | sym _ _, h | unary _ _, h | binary _ _ _, h | compare _ _ _, h | signExtend _ _, h
  | apply _ _ _, h | select _ _ _, h => exact h

theorem namedBy_pieces : ∀ (ts : List Term) {high low : Nat}, (∀ t ∈ ts, t.NamedBy p) →
    ∀ s ∈ pieces high low ts, s.NamedBy p
  | [], _, _, _ => by simp [pieces]
  | t :: ts, high, low, h => by
    rw [List.forall_mem_cons] at h
    simp only [pieces]
    split
    · exact namedBy_pieces ts h.2
    · exact List.forall_mem_cons.2 ⟨NamedBy.mkExtract h.1, namedBy_pieces ts h.2⟩

end

/-! ## Whole terms -/

mutual

theorem NamedBy.normalize : ∀ {t : Term}, t.NamedBy p → t.normalize.NamedBy p
  | lit _ _, h | sym _ _, h => h
  | unary _ t, h => (NamedBy.normalize (t := t) h).mkUnary
  | binary _ _ _, h => by
    rw [namedBy_binary] at h
    exact h.1.normalize.mkBinary h.2.normalize
  | compare _ _ _, h => by
    rw [namedBy_compare] at h
    exact h.1.normalize.mkCompare h.2.normalize
  | extract _ _ t, h => (NamedBy.normalize (t := t) h).mkExtract
  | concat ts, h => namedBy_mkConcat (namedBy_normalizeList ts (namedBy_concat.1 h))
  | zeroExtend _ t, h => (NamedBy.normalize (t := t) h).mkZeroExtend
  | signExtend _ t, h => (NamedBy.normalize (t := t) h).mkSignExtend
  | apply _ ts _, h => by
    rw [namedBy_apply] at h
    exact namedBy_apply.2 ⟨h.1, namedBy_normalizeList ts h.2⟩
  | select _ _ _, h => by
    rw [namedBy_select] at h
    exact namedBy_select.2 ⟨h.1, h.2.normalize⟩

theorem namedBy_normalizeList : ∀ (ts : List Term), (∀ t ∈ ts, t.NamedBy p) →
    ∀ s ∈ normalizeList ts, s.NamedBy p
  | [], _ => by simp [normalizeList]
  | t :: ts, h => by
    rw [List.forall_mem_cons] at h
    exact List.forall_mem_cons.2 ⟨h.1.normalize, namedBy_normalizeList ts h.2⟩

end

mutual

theorem NamedBy.replace {old new : Term} (hnew : new.NamedBy p) : ∀ {t : Term}, t.NamedBy p →
    (replace old new t).NamedBy p := by
  intro t h
  rw [replace.eq_def]
  split
  · exact hnew
  match t, h with
  | lit _ _, h | sym _ _, h => exact h
  | unary _ t, h | extract _ _ t, h | zeroExtend _ t, h | signExtend _ t, h =>
    exact hnew.replace (t := t) h
  | binary _ _ _, h =>
    rw [namedBy_binary] at h
    exact namedBy_binary.2 ⟨hnew.replace h.1, hnew.replace h.2⟩
  | compare _ _ _, h =>
    rw [namedBy_compare] at h
    exact namedBy_compare.2 ⟨hnew.replace h.1, hnew.replace h.2⟩
  | concat ts, h => exact namedBy_concat.2 (hnew.replaceList ts (namedBy_concat.1 h))
  | apply _ ts _, h =>
    rw [namedBy_apply] at h
    exact namedBy_apply.2 ⟨h.1, hnew.replaceList ts h.2⟩
  | select _ _ _, h =>
    rw [namedBy_select] at h
    exact namedBy_select.2 ⟨h.1, hnew.replace h.2⟩

theorem NamedBy.replaceList {old new : Term} (hnew : new.NamedBy p) : ∀ (ts : List Term),
    (∀ t ∈ ts, t.NamedBy p) → ∀ s ∈ replaceList old new ts, s.NamedBy p
  | [], _ => by simp [Term.replaceList]
  | t :: ts, h => by
    rw [List.forall_mem_cons] at h
    exact List.forall_mem_cons.2 ⟨hnew.replace h.1, hnew.replaceList ts h.2⟩

end

theorem NamedBy.foldl_xnorStep (h : t.NamedBy p) : ∀ (is : List Nat) {acc : Term},
    acc.NamedBy p → (is.foldl (xnorStep t) acc).NamedBy p
  | [], _, hacc => hacc
  | _ :: is, _, hacc => h.foldl_xnorStep is (hacc.mkBinary h.mkExtract).mkUnary

end Term

/-! ## Results -/

namespace Value

open Term

variable {p : String → Prop} {v u : Value} {high low : Nat}

theorem namedBy_extract (hv : v.term.NamedBy p) (h : v.extract high low = .ok u) :
    u.term.NamedBy p := by
  obtain ⟨-, -, rfl⟩ := eq_of_extract h
  exact hv.mkExtract

theorem namedBy_testBit {i : Nat} (hv : v.term.NamedBy p) (h : v.testBit i = .ok u) :
    u.term.NamedBy p := by
  obtain ⟨rfl, -⟩ := eq_of_counted h
  exact hv.mkExtract.mkCompare namedBy_ofBool

theorem namedBy_concat {vs : List Value} (hvs : ∀ v ∈ vs, v.term.NamedBy p)
    (h : concat vs = .ok u) : u.term.NamedBy p := by
  cases vs with
  | nil => cases h
  | cons v vs =>
    obtain ⟨rfl, -⟩ := eq_of_counted h
    exact namedBy_mkConcat fun t ht => by
      obtain ⟨x, hx, rfl⟩ := List.mem_map.1 ht
      exact hvs x hx

theorem namedBy_substitute {old new : Value} (hv : v.term.NamedBy p) (hnew : new.term.NamedBy p)
    (h : v.substitute old new = .ok u) : u.term.NamedBy p := by
  obtain ⟨-, h⟩ := eq_of_substitute h
  split at h
  · cases h
    exact hv
  · obtain ⟨rfl, -⟩ := eq_of_counted h
    exact (hnew.replace hv).normalize

end Value

theorem AlgebraCall.run_namedBy {p : String → Prop} {c : AlgebraCall} {u : Value}
    (h : ∀ v ∈ c.args, v.term.NamedBy p) (hrun : c.run = .ok u) : u.term.NamedBy p := by
  obtain ⟨t, -, hmakes⟩ := run_makes hrun
  cases hmakes with
  | argument hv => exact h _ hv
  | unary hx => exact (h _ hx).mkUnary
  | binary hx hy hu =>
    obtain ⟨-, rfl⟩ := Value.eq_of_agree hu
    exact (h _ hx).mkBinary (h _ hy)
  | compare hx hy hu =>
    obtain ⟨-, rfl⟩ := Value.eq_of_agree hu
    exact (h _ hx).mkCompare (h _ hy)
  | compareZero hx => exact (h _ hx).mkCompare Term.namedBy_zero
  | extract hx hu => exact Value.namedBy_extract (h _ hx) hu
  | testBit hx hi hu => exact Value.namedBy_testBit (h _ hx) hu
  | xnorReduce hx hu =>
    obtain ⟨rfl, -⟩ := Value.eq_of_counted hu
    exact ((h _ hx).foldl_xnorStep _ (h _ hx).mkExtract).mkCompare Term.namedBy_ofBool
  | zeroExtend hx hu =>
    obtain ⟨-, rfl⟩ := Value.eq_of_checkExtension hu
    exact (h _ hx).mkZeroExtend
  | signExtend hx hu =>
    obtain ⟨-, rfl⟩ := Value.eq_of_checkExtension hu
    exact (h _ hx).mkSignExtend
  | concat hc hu =>
    subst hc
    exact Value.namedBy_concat h hu
  | substitute hv hnew hu => exact Value.namedBy_substitute (h _ hv) (h _ hnew) hu

end SymWord
