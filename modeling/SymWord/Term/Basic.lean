import SymWord.Operator
import SymWord.Width

/-!
# Terms

A term describes a bitvector. Terms are built freely: nothing here asks that operands have equal
widths or that an extraction lies inside its operand. The width of a term is read off its shape,
a binary node having the width of its left operand.

Equality of terms is decided by `same`, which `same_iff` shows to be equality.
-/

namespace SymWord

inductive Term where
  /-- A literal; `Term.const` reduces its value to the width. -/
  | lit (value width : Nat)
  /-- An unknown. -/
  | sym (name : String) (width : Nat)
  | unary (op : UnaryOp) (arg : Term)
  | binary (op : BinaryOp) (lhs rhs : Term)
  /-- A comparison is one bit wide, and set where it holds. -/
  | compare (op : Comparison) (lhs rhs : Term)
  /-- The bits from `high` down to `low`, both included. -/
  | extract (high low : Nat) (arg : Term)
  /-- The most significant part comes first. -/
  | concat (parts : List Term)
  | zeroExtend (bits : Nat) (arg : Term)
  | signExtend (bits : Nat) (arg : Term)
  /-- An application of an uninterpreted function. -/
  | apply (func : String) (args : List Term) (width : Nat)
  /-- A read from an uninterpreted array. -/
  | select (array : String) (index : Term) (width : Nat)

namespace Term

mutual

def width : Term → Nat
  | lit _ w => w
  | sym _ w => w
  | unary _ t => t.width
  | binary _ l _ => l.width
  | compare _ _ _ => 1
  | extract high low _ => high - low + 1
  | concat parts => totalWidth parts
  | zeroExtend bits t => Width.extend bits t.width
  | signExtend bits t => Width.extend bits t.width
  | apply _ _ w => w
  | select _ _ w => w

/-- The width of a concatenation. -/
def totalWidth : List Term → Nat
  | [] => 0
  | t :: ts => t.width + totalWidth ts

end

mutual

/-- Whether two terms are the same tree. -/
def same : Term → Term → Bool
  | lit v w, lit v' w' => v == v' && w == w'
  | sym n w, sym n' w' => n == n' && w == w'
  | unary op t, unary op' t' => op == op' && same t t'
  | binary op l r, binary op' l' r' => op == op' && same l l' && same r r'
  | compare op l r, compare op' l' r' => op == op' && same l l' && same r r'
  | extract high low t, extract high' low' t' => high == high' && low == low' && same t t'
  | concat ts, concat ts' => sameList ts ts'
  | zeroExtend bits t, zeroExtend bits' t' => bits == bits' && same t t'
  | signExtend bits t, signExtend bits' t' => bits == bits' && same t t'
  | apply f ts w, apply f' ts' w' => f == f' && w == w' && sameList ts ts'
  | select a t w, select a' t' w' => a == a' && w == w' && same t t'
  | _, _ => false

def sameList : List Term → List Term → Bool
  | [], [] => true
  | t :: ts, t' :: ts' => same t t' && sameList ts ts'
  | _, _ => false

end

mutual

theorem same_refl : (t : Term) → same t t = true
  | lit _ _ => by simp [same]
  | sym _ _ => by simp [same]
  | unary _ t => by simp [same, same_refl t]
  | binary _ l r => by simp [same, same_refl l, same_refl r]
  | compare _ l r => by simp [same, same_refl l, same_refl r]
  | extract _ _ t => by simp [same, same_refl t]
  | concat ts => by simp [same, sameList_refl ts]
  | zeroExtend _ t => by simp [same, same_refl t]
  | signExtend _ t => by simp [same, same_refl t]
  | apply _ ts _ => by simp [same, sameList_refl ts]
  | select _ t _ => by simp [same, same_refl t]

theorem sameList_refl : (ts : List Term) → sameList ts ts = true
  | [] => rfl
  | t :: ts => by simp [sameList, same_refl t, sameList_refl ts]

end

mutual

theorem eq_of_same : {s t : Term} → same s t = true → s = t
  | lit _ _, t, h => by cases t <;> simp_all [same]
  | sym _ _, t, h => by cases t <;> simp_all [same]
  | unary _ s, t, h => by
    cases t <;> simp only [same, Bool.and_eq_true, beq_iff_eq, reduceCtorEq] at h
    rw [h.1, eq_of_same h.2]
  | binary _ l r, t, h => by
    cases t <;> simp only [same, Bool.and_eq_true, beq_iff_eq, reduceCtorEq] at h
    rw [h.1.1, eq_of_same h.1.2, eq_of_same h.2]
  | compare _ l r, t, h => by
    cases t <;> simp only [same, Bool.and_eq_true, beq_iff_eq, reduceCtorEq] at h
    rw [h.1.1, eq_of_same h.1.2, eq_of_same h.2]
  | extract _ _ s, t, h => by
    cases t <;> simp only [same, Bool.and_eq_true, beq_iff_eq, reduceCtorEq] at h
    rw [h.1.1, h.1.2, eq_of_same h.2]
  | concat ss, t, h => by
    cases t <;> simp only [same, reduceCtorEq] at h
    rw [eq_of_sameList h]
  | zeroExtend _ s, t, h => by
    cases t <;> simp only [same, Bool.and_eq_true, beq_iff_eq, reduceCtorEq] at h
    rw [h.1, eq_of_same h.2]
  | signExtend _ s, t, h => by
    cases t <;> simp only [same, Bool.and_eq_true, beq_iff_eq, reduceCtorEq] at h
    rw [h.1, eq_of_same h.2]
  | apply _ ss _, t, h => by
    cases t <;> simp only [same, Bool.and_eq_true, beq_iff_eq, reduceCtorEq] at h
    rw [h.1.1, h.1.2, eq_of_sameList h.2]
  | select _ s _, t, h => by
    cases t <;> simp only [same, Bool.and_eq_true, beq_iff_eq, reduceCtorEq] at h
    rw [h.1.1, h.1.2, eq_of_same h.2]

theorem eq_of_sameList : {ss ts : List Term} → sameList ss ts = true → ss = ts
  | [], ts, h => by cases ts <;> simp_all [sameList]
  | s :: ss, ts, h => by
    cases ts <;> simp only [sameList, Bool.and_eq_true, reduceCtorEq] at h
    rw [eq_of_same h.1, eq_of_sameList h.2]

end

theorem same_iff {s t : Term} : same s t = true ↔ s = t :=
  ⟨eq_of_same, fun h => h ▸ same_refl s⟩

instance : DecidableEq Term := fun _ _ => decidable_of_iff _ same_iff

/-! ## Literals -/

/-- The literal of a number, reduced to the width. -/
def const (v w : Nat) : Term := lit (Word.truncate v w) w

def zero (w : Nat) : Term := lit 0 w

/-- One bit, set for `true`. -/
def ofBool (b : Bool) : Term := lit b.toNat 1

/-- The number of a literal. -/
def value? : Term → Option Nat
  | lit v _ => some v
  | _ => none

def isLit (t : Term) : Bool := t.value?.isSome

def isZero : Term → Bool
  | lit v _ => v == 0
  | _ => false

def isOne : Term → Bool
  | lit v _ => v == 1
  | _ => false

def isAllOnes : Term → Bool
  | lit v w => Word.isMask v w
  | _ => false

/-! ## Depth -/

mutual

/-- The number of nodes above the deepest leaf. -/
def depth : Term → Nat
  | lit _ _ => 0
  | sym _ _ => 0
  | unary _ t => 1 + t.depth
  | binary _ l r => 1 + max l.depth r.depth
  | compare _ l r => 1 + max l.depth r.depth
  | extract _ _ t => 1 + t.depth
  | concat ts => 1 + maxDepth ts
  | zeroExtend _ t => 1 + t.depth
  | signExtend _ t => 1 + t.depth
  | apply _ ts _ => 1 + maxDepth ts
  | select _ t _ => 1 + t.depth

def maxDepth : List Term → Nat
  | [] => 0
  | t :: ts => max t.depth (maxDepth ts)

end

end Term

end SymWord
