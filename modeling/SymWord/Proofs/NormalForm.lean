import SymWord.Proofs.Normalization

/-!
# Terms in normal form

A term is in normal form when no rule applies at any of its nodes. For some kinds of nodes it is
enough to say that the rules give the node back. For comparisons, slices and zero extensions the
condition is spelled out, since there the rules build nodes of the same kind from parts of a node:
a negated comparison, an extraction joined from two, a longer zero extension.

Normalization does not change a term in normal form (`normalize_of_normal`).
-/

namespace SymWord

namespace Term

/-- A term that no extraction goes through. -/
def isSolid : Term → Bool
  | lit _ _ | extract _ _ _ | concat _ | zeroExtend _ _ => false
  | _ => true

def isZeroExtend : Term → Bool
  | zeroExtend _ _ => true
  | _ => false

/-- A term from which an equality with a literal can move something to the other side. -/
def isMovable : Term → Bool
  | binary .add _ (lit _ _) | binary .xor _ (lit _ _) | unary _ _ => true
  | _ => false

/-- No rule for comparisons applies. -/
structure Settled (op : Comparison) (l r : Term) : Prop where
  not_lit : l.isLit = false
  ne : l ≠ r
  solved : r.isLit = true → op.isEquality = true → l.width ≠ 1 ∧ l.isMovable = false

/-- No two neighbours can be joined. -/
def Apart : List Term → Prop
  | t :: u :: ts => join? t u = none ∧ Apart (u :: ts)
  | _ => True

/-- No rule for concatenations applies. -/
structure Joined (ts : List Term) : Prop where
  two_le : 2 ≤ ts.length
  flat : ∀ t ∈ ts, t.isConcat = false
  apart : Apart ts
  head : ∀ t ∈ ts.head?, t.isZero = false

mutual

def Normal : Term → Prop
  | lit _ _ => True
  | sym _ _ => True
  | unary op t => t.Normal ∧ mkUnary op t = unary op t
  | binary op l r => l.Normal ∧ r.Normal ∧ mkBinary op l r = binary op l r
  | compare op l r => l.Normal ∧ r.Normal ∧ Settled op l r
  | extract high low t =>
    t.Normal ∧ t.isSolid = true ∧ ¬(low = 0 ∧ high + 1 = t.width)
  | concat ts => AllNormal ts ∧ Joined ts
  | zeroExtend bits t => t.Normal ∧ bits ≠ 0 ∧ t.isLit = false ∧ t.isZeroExtend = false
  | signExtend bits t => t.Normal ∧ mkSignExtend bits t = signExtend bits t
  | apply _ ts _ => AllNormal ts
  | select _ t _ => t.Normal

def AllNormal : List Term → Prop
  | [] => True
  | t :: ts => t.Normal ∧ AllNormal ts

end

theorem allNormal_iff {ts : List Term} : AllNormal ts ↔ ∀ t ∈ ts, t.Normal := by
  induction ts with
  | nil => simp [AllNormal]
  | cons t ts ih => simp [AllNormal, ih]

variable {t u l r : Term} {ts : List Term} {c cw w bits high low : Nat}

/-! ## Normal terms are left alone -/

theorem mkCompareLit_of_settled {op : Comparison} (h : Settled op t (lit c cw)) :
    mkCompareLit op t c cw = compare op t (lit c cw) := by
  have hsolved := h.solved rfl
  have hplain : compareLit op t c cw = compare op t (lit c cw) := by
    rw [compareLit, if_neg]
    exact fun ⟨hop, hw⟩ => (hsolved hop).1 hw
  fun_cases mkCompareLit op t c cw with
  | case1 => cases h.not_lit
  | case2 x d dw hop => cases (hsolved hop.1).2
  | case4 x d dw hop => cases (hsolved hop.1).2
  | case6 u x hop => cases (hsolved hop.1).2
  | case3 | case5 | case7 | case8 => exact hplain

theorem mkCompare_of_settled {op : Comparison} (h : Settled op l r) :
    mkCompare op l r = compare op l r := by
  fun_cases mkCompare op l r with
  | case1 | case2 => cases h.not_lit
  | case3 => exact mkCompareLit_of_settled h
  | case4 => exact absurd rfl h.ne
  | case5 => rfl

theorem mkExtract_of_solid (h : t.isSolid = true) : mkExtract high low t = slice high low t := by
  rw [mkExtract.eq_def, slice]
  cases t <;> first | rfl | cases h

theorem mkZeroExtend_of_normal (h : (zeroExtend bits t).Normal) :
    mkZeroExtend bits t = zeroExtend bits t := by
  obtain ⟨-, hbits, hlit, hext⟩ := h
  fun_cases mkZeroExtend bits t with
  | case1 => exact absurd ‹_› hbits
  | case2 => cases hlit
  | case3 => cases hext
  | case4 => rfl

theorem join?_of_apart : ∀ (ss : List Term), Apart (ss ++ t :: u :: ts) → join? t u = none
  | [], h => h.1
  | [_], h => h.2.1
  | _ :: s :: ss, h => join?_of_apart (s :: ss) h.2

/-- Parts that are apart are pushed one by one. -/
theorem foldl_pushPart_of_apart : ∀ (ts stack : List Term), Apart (stack.reverse ++ ts) →
    ts.foldl pushPart stack = ts.reverse ++ stack
  | [], _, _ => rfl
  | t :: ts, stack, h => by
    have hpush : pushPart stack t = t :: stack := by
      cases stack with
      | nil => rfl
      | cons last rest =>
        rw [List.reverse_cons, List.append_assoc, List.singleton_append] at h
        rw [pushPart, join?_of_apart rest.reverse h]
    have hrest : Apart ((t :: stack).reverse ++ ts) := by
      rwa [List.reverse_cons, List.append_assoc, List.singleton_append]
    rw [List.foldl_cons, hpush, foldl_pushPart_of_apart ts (t :: stack) hrest,
      List.reverse_cons, List.append_assoc, List.singleton_append]

theorem joinParts_of_apart (hflat : ∀ t ∈ ts, t.isConcat = false) (h : Apart ts) :
    joinParts ts = ts := by
  rw [joinParts, flatMap_flatten_of_flat hflat, foldl_pushPart_of_apart ts [] h, List.append_nil,
    List.reverse_reverse]

theorem mkConcat_of_joined (h : Joined ts) : mkConcat ts = concat ts := by
  have hjoin := joinParts_of_apart h.flat h.apart
  have hlen := h.two_le
  have hhead := h.head
  fun_cases mkConcat ts with
  | case1 t heq =>
    rw [← hjoin, heq] at hlen
    exact absurd hlen (by simp)
  | case2 t u heq hzero =>
    rw [← hjoin, heq] at hhead
    rw [hhead t rfl] at hzero
    cases hzero
  | case4 t us _ _ heq hzero =>
    rw [← hjoin, heq] at hhead
    rw [hhead t rfl] at hzero
    cases hzero
  | case3 _ _ heq | case5 _ _ _ _ heq | case6 heq => rw [← heq, hjoin]

mutual

theorem normalize_of_normal : ∀ {t : Term}, t.Normal → t.normalize = t
  | lit _ _, _ => rfl
  | sym _ _, _ => rfl
  | unary op t, h => by rw [normalize, normalize_of_normal h.1, h.2]
  | binary op l r, h => by
    rw [normalize, normalize_of_normal h.1, normalize_of_normal h.2.1, h.2.2]
  | compare op l r, h => by
    rw [normalize, normalize_of_normal h.1, normalize_of_normal h.2.1, mkCompare_of_settled h.2.2]
  | extract high low t, h => by
    rw [normalize, normalize_of_normal h.1, mkExtract_of_solid h.2.1, slice, if_neg h.2.2]
  | concat ts, h => by
    rw [normalize, normalizeList_of_normal ts h.1, mkConcat_of_joined h.2]
  | zeroExtend bits t, h => by
    rw [normalize, normalize_of_normal h.1, mkZeroExtend_of_normal h]
  | signExtend bits t, h => by rw [normalize, normalize_of_normal h.1, h.2]
  | apply f ts w, h => by rw [normalize, normalizeList_of_normal ts h]
  | select a t w, h => by rw [normalize, normalize_of_normal (t := t) h]

theorem normalizeList_of_normal : ∀ (ts : List Term), AllNormal ts → normalizeList ts = ts
  | [], _ => rfl
  | t :: ts, h => by rw [normalizeList, normalize_of_normal h.1, normalizeList_of_normal ts h.2]

end

/-! ## Operator nodes -/

theorem isLit_eq_false (h : ∀ v w, t = lit v w → False) : t.isLit = false := by
  cases t with
  | lit v w => exact absurd rfl (h v w)
  | _ => rfl

theorem Settled.negate {op : Comparison} (h : Settled op l r) : Settled op.negate l r where
  not_lit := h.not_lit
  ne := h.ne
  solved hr hop := h.solved hr (by cases op <;> first | rfl | cases hop)

theorem mkUnary_normal {op : UnaryOp} (h : t.Normal) : (mkUnary op t).Normal := by
  by_cases hplain : mkUnary op t = unary op t
  · rw [hplain]
    exact ⟨h, hplain⟩
  revert hplain
  fun_cases mkUnary op t with
  | case1 => exact fun _ => trivial
  | case2 => exact fun _ => h.1
  | case4 c l r => exact fun _ => ⟨h.1, h.2.1, h.2.2.negate⟩
  | case3 | case5 | case6 => exact fun hne => absurd rfl hne

theorem trivial?_normal {op : BinaryOp} (h : t.Normal) (hu : trivial? op w t c cw = some u) :
    u.Normal := by
  have hnot : (mkUnary .not t).Normal := mkUnary_normal h
  revert hu
  fun_cases trivial? op w t c cw <;> rintro ⟨⟩ <;> first | exact h | exact hnot | trivial

/-- A literal operand on the right that no rule takes away. -/
theorem binary_lit_normal {op : BinaryOp} (hop : op ≠ .sub) (h : t.Normal)
    (hplain : mkBinaryLit op t.width t c cw = binary op t (lit c cw)) :
    (binary op t (lit c cw)).Normal := by
  refine ⟨h, trivial, ?_⟩
  cases t with
  | lit => cases hplain
  | _ => exact (if_neg hop).trans hplain

theorem mkBinaryLit_normal {op : BinaryOp} (hop : op ≠ .sub) (h : t.Normal) (hw : w = t.width) :
    (mkBinaryLit op w t c cw).Normal := by
  by_cases hplain : mkBinaryLit op w t c cw = binary op t (lit c cw)
  · rw [hplain]
    rw [hw] at hplain
    exact binary_lit_normal hop h hplain
  revert hplain
  fun_induction mkBinaryLit op w t c cw with
  | case1 => exact fun _ => trivial
  | case2 w c cw op' x d dw u hu => exact fun _ => trivial?_normal h hu
  | case3 w c cw op' x d dw htriv hassoc ih =>
    intro _
    by_cases hx : mkBinaryLit op x.width x (op.eval d c w) w = binary op x (lit (op.eval d c w) w)
    · rw [hx]
      exact binary_lit_normal hop h.1 hx
    · exact ih h.1 rfl hx
  | case5 w c cw t hlit hbin u hu => exact fun _ => trivial?_normal h hu
  | case4 | case6 => exact fun hne => absurd rfl hne

theorem mkBinary_normal {op : BinaryOp} (hw : l.width = r.width) (hl : l.Normal)
    (hr : r.Normal) : (mkBinary op l r).Normal := by
  by_cases hplain : mkBinary op l r = binary op l r
  · rw [hplain]
    exact ⟨hl, hr, hplain⟩
  revert hplain
  fun_cases mkBinary op l r with
  | case1 => exact fun _ => trivial
  | case2 _ a w _ _ hcomm =>
    exact fun _ => mkBinaryLit_normal (by rintro rfl; cases hcomm) hr hw
  | case3 _ a w =>
    fun_cases mkLitBinary op a w r with
    | case1 => exact fun _ => mkUnary_normal hr
    | case2 | case3 | case4 | case5 => exact fun _ => trivial
    | case6 | case7 => exact fun hne => absurd rfl hne
  | case4 => exact fun _ => mkBinaryLit_normal (by decide) hl rfl
  | case5 _ _ _ _ _ hop => exact fun _ => mkBinaryLit_normal hop hl rfl
  | case6 | case7 => exact fun _ => trivial
  | case8 | case9 => exact fun _ => hl
  | case10 | case11 => exact fun hne => absurd rfl hne

theorem compareLit_normal {op : Comparison} (h : t.Normal) (hlit : t.isLit = false)
    (hmove : op.isEquality = true → t.width ≠ 1 → t.isMovable = false) :
    (compareLit op t c cw).Normal := by
  fun_cases compareLit op t c cw with
  | case1 => exact h
  | case2 => exact mkUnary_normal h
  | case3 hne =>
    refine ⟨h, trivial, hlit, ?_, fun _ hop => ?_⟩
    · rintro rfl
      cases hlit
    · have hw : t.width ≠ 1 := fun hw => hne ⟨hop, hw⟩
      exact ⟨hw, hmove hop hw⟩

theorem mkCompareLit_normal {op : Comparison} (h : t.Normal) :
    (mkCompareLit op t c cw).Normal := by
  fun_induction mkCompareLit op t c cw with
  | case1 => trivial
  | case2 c cw x d dw hop ih => exact ih h.1
  | case3 c cw x d dw hop =>
    exact compareLit_normal h rfl fun hop' hw => absurd ⟨hop', hw⟩ hop
  | case4 c cw x d dw hop ih => exact ih h.1
  | case5 c cw x d dw hop =>
    exact compareLit_normal h rfl fun hop' hw => absurd ⟨hop', hw⟩ hop
  | case6 c cw u x hop ih => exact ih h.1
  | case7 c cw u x hop =>
    exact compareLit_normal h rfl fun hop' hw => absurd ⟨hop', hw⟩ hop
  | case8 c cw t hlit hadd hxor hunary =>
    refine compareLit_normal h ?_ fun _ _ => ?_
    · exact isLit_eq_false hlit
    · fun_cases isMovable t with
      | case1 x d dw => exact absurd rfl (hadd x d dw)
      | case2 x d dw => exact absurd rfl (hxor x d dw)
      | case3 u x => exact absurd rfl (hunary u x)
      | case4 => rfl

theorem mkCompare_normal {op : Comparison} (hl : l.Normal) (hr : r.Normal) :
    (mkCompare op l r).Normal := by
  fun_cases mkCompare op l r with
  | case1 => trivial
  | case2 => exact mkCompareLit_normal hr
  | case3 => exact mkCompareLit_normal hl
  | case4 => trivial
  | case5 _ _ _ hleft hright hne =>
    refine ⟨hl, hr, isLit_eq_false hleft, hne, fun hlit => ?_⟩
    rw [isLit_eq_false hright] at hlit
    cases hlit

end Term

end SymWord
