import SymWord.Term.Basic

/-!
# Evaluation

The number that a term stands for under bindings of its symbols. A symbol's binding is reduced to
the width at which the term uses it. There is no number when a symbol is unbound, or when an
uninterpreted function or array is met.
-/

namespace SymWord

/-- The numbers of symbols. -/
abbrev Bindings := String → Option Nat

namespace Term

mutual

def evaluate (b : Bindings) : Term → Option Nat
  | lit v _ => some v
  | sym n w => (b n).map (Word.truncate · w)
  | unary op t => do
    let v ← evaluate b t
    return op.eval v t.width
  | binary op l r => do
    let v ← evaluate b l
    let v' ← evaluate b r
    return op.eval v v' l.width
  | compare op l r => do
    let v ← evaluate b l
    let v' ← evaluate b r
    return (op.eval v v' l.width).toNat
  | extract high low t => do
    let v ← evaluate b t
    return Word.truncate (v >>> low) (high - low + 1)
  | concat ts => evaluateParts b 0 ts
  | zeroExtend _ t => evaluate b t
  | signExtend bits t => do
    let v ← evaluate b t
    return Word.signExtend v t.width (t.width + bits)
  | apply _ _ _ => none
  | select _ _ _ => none

/-- The number of the parts put below the bits of `high`. -/
def evaluateParts (b : Bindings) (high : Nat) : List Term → Option Nat
  | [] => some high
  | t :: ts => do
    let v ← evaluate b t
    evaluateParts b ((high <<< t.width) ||| v) ts

end

end Term

end SymWord
