import SymWord.Term.Basic

/-!
# Normal forms of slices

`mkExtract`, `mkConcat`, `mkZeroExtend` and `mkSignExtend` build a node over operands in normal form
and bring the result to normal form:

* an extraction goes through extractions, concatenations and zero extensions to what lies below;
* neighbouring parts of a concatenation are joined when both are literals, or when both are
  extractions from one term that meet;
* a concatenation whose first part is zero is a zero extension.

The concatenation of all the single bits of a term in normal form is that term again, unless a part
of a concatenation is a zero extension or a zero extension is over a concatenation that begins with
a literal (`isSeamless`).
-/

namespace SymWord

namespace Term

def mkZeroExtend (bits : Nat) (t : Term) : Term :=
  if bits = 0 then t else
  match t with
  | lit v w => const v (w + bits)
  | zeroExtend bits' x => zeroExtend (bits + bits') x
  | t => zeroExtend bits t

def mkSignExtend (bits : Nat) (t : Term) : Term :=
  if bits = 0 then t else
  match t with
  | lit v w => const (Word.signExtend v w (w + bits)) (w + bits)
  | t => signExtend bits t

/-- The extraction from a term that no extraction goes through. -/
def slice (high low : Nat) (t : Term) : Term :=
  if low = 0 ∧ high + 1 = t.width then t else extract high low t

/-- One term for two neighbouring parts, `upper` being the more significant one. Extractions in
normal form are from terms that no extraction goes through, where `slice` is `mkExtract`
(`mkExtract_of_solid`). -/
def join? (upper lower : Term) : Option Term :=
  match upper, lower with
  | lit a w, lit b w' => some (const ((a <<< w') ||| b) (w + w'))
  | extract high low t, extract high' low' t' =>
    if t = t' ∧ low = high' + 1 then some (slice high low' t) else none
  | _, _ => none

/-- Adds a part at the less significant end. The parts so far are listed from that end. -/
def pushPart (parts : List Term) (t : Term) : List Term :=
  match parts with
  | [] => [t]
  | last :: rest =>
    match join? last t with
    | some u => u :: rest
    | none => t :: last :: rest

/-- The parts of a term: those of a concatenation, or the term alone. -/
def flatten : Term → List Term
  | concat ts => ts
  | t => [t]

/-- The parts with nested concatenations opened and neighbours joined. -/
def joinParts (parts : List Term) : List Term :=
  ((parts.flatMap flatten).foldl pushPart []).reverse

def mkConcat (parts : List Term) : Term :=
  match joinParts parts with
  | [t] => t
  | [t, u] => if t.isZero then mkZeroExtend t.width u else concat [t, u]
  | t :: ts => if t.isZero then mkZeroExtend t.width (concat ts) else concat (t :: ts)
  | [] => concat []

mutual

def mkExtract (high low : Nat) (t : Term) : Term :=
  if low = 0 ∧ high + 1 = t.width then t else
  match t with
  | lit v _ => const (v >>> low) (high - low + 1)
  | extract _ low' x => mkExtract (high + low') (low + low') x
  | concat ts => mkConcat (pieces high low ts)
  | zeroExtend _ x =>
    if high < x.width then mkExtract high low x
    else if x.width ≤ low then zero (high - low + 1)
    else mkConcat [zero (high - x.width + 1), mkExtract (x.width - 1) low x]
  | t => extract high low t

/-- What an extraction leaves of each part of a concatenation that it meets. -/
def pieces (high low : Nat) : List Term → List Term
  | [] => []
  | t :: ts =>
    let bottom := totalWidth ts
    let top := bottom + t.width - 1
    if top < low ∨ high < bottom then pieces high low ts
    else
      mkExtract (min high top - bottom) (max low bottom - bottom) t ::
        pieces high low ts

end

end Term

end SymWord
