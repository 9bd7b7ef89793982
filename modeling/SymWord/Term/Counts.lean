import SymWord.Error
import SymWord.Term.Evaluation
import SymWord.Term.Normal

/-!
# Counts

Widths and bit positions are counts, which have to stay below `Width.limit`. Terms are built and
evaluated as if there were no limit. Here stands which sums and differences of counts are formed on
the way, in their order: `widthCounts` for the width of a term, one list for each rule of the normal
form, and `evaluationCounts`. Forming a count that is out of range is a failure, which ends what is
being done (`Count.form`).

Left out are counts that are in range whenever those before them are, such as the place of a part
inside a concatenation whose width has been taken.
-/

namespace SymWord

/-- A sum or a difference of two counts. -/
inductive Count where
  | sum (a b : Nat)
  | difference (a b : Nat)

namespace Count

/-- The result is a count again. -/
def Fits : Count → Prop
  | sum a b => a + b < Width.limit
  | difference a b => b ≤ a

instance : DecidablePred Fits
  | sum _ _ => inferInstanceAs (Decidable (_ < _))
  | difference _ _ => inferInstanceAs (Decidable (_ ≤ _))

def error : Count → Error
  | sum _ _ => .overflow
  | difference _ _ => .underflow

/-- The counts that are formed once there is a number. -/
def whenSome (n : Option Nat) (cs : List Count) : List Count := if n.isSome then cs else []

/-- Fails at the first count that does not fit. -/
def form : List Count → Except Error Unit
  | [] => .ok ()
  | c :: cs => if c.Fits then form cs else .error c.error

end Count

namespace Term

open SymWord.Count

/-- The positions from `low` up to `high` are counted. -/
def spanCounts (high low : Nat) : List Count := [difference high low, sum (high - low) 1]

mutual

def widthCounts : Term → List Count
  | lit _ _ => []
  | sym _ _ => []
  | unary _ t => t.widthCounts
  | binary _ l _ => l.widthCounts
  | compare _ _ _ => []
  | extract high low _ => spanCounts high low
  | concat ts => totalCounts 0 ts
  | zeroExtend _ t => t.widthCounts
  | signExtend _ t => t.widthCounts
  | apply _ _ _ => []
  | select _ _ _ => []

/-- The widths of the terms are added to `n` one by one. -/
def totalCounts (n : Nat) : List Term → List Count
  | [] => []
  | t :: ts => t.widthCounts ++ sum n t.width :: totalCounts (n + t.width) ts

end

/-! ## Operator nodes

The width of an operator node is that of its left operand. If that is a literal, the width of the
right operand is taken where the operands are exchanged or a rule for it alone is used. -/

/-- What `c op t` for a literal `c` of width `w` takes of the other operand. -/
def mkLitBinaryCounts (op : BinaryOp) (c w : Nat) (t : Term) : List Count :=
  if op.isCommutative then
    match trivial? op w t c w, t with
    | some _, t => if op = .xor ∧ c ≠ 0 then t.widthCounts else []
    | none, binary op' x (lit _ _) => if op.isAssociative ∧ op' = op then x.widthCounts else []
    | none, _ => []
  else if c = 0 ∧ op = .sub then t.widthCounts
  else []

def mkBinaryCounts (op : BinaryOp) (l r : Term) : List Count :=
  l.widthCounts ++
    match l, r with
    | lit _ _, lit _ _ => []
    | lit c w, t => mkLitBinaryCounts op c w t
    | _, _ => []

def mkCompareCounts (l r : Term) : List Count :=
  l.widthCounts ++
    match l, r with
    | lit _ _, lit _ _ => []
    | lit _ _, t => t.widthCounts
    | _, _ => []

/-! ## Slices -/

def mkZeroExtendCounts (bits : Nat) (t : Term) : List Count :=
  if bits = 0 then [] else
  match t with
  | lit _ w => [sum w bits]
  | zeroExtend bits' _ => [sum bits bits']
  | _ => []

def mkSignExtendCounts (bits : Nat) (t : Term) : List Count :=
  if bits = 0 then [] else
  match t with
  | lit _ w => [sum w bits]
  | _ => []

def sliceCounts (high low : Nat) (t : Term) : List Count :=
  t.widthCounts ++ (if low = 0 then [sum high 1] else []) ++
    if low = 0 ∧ high + 1 = t.width then [] else spanCounts high low

def joinCounts (upper lower : Term) : List Count :=
  match upper, lower with
  | lit _ w, lit _ w' => [sum w w']
  | extract high low t, extract high' low' t' =>
    if t = t' then
      sum high' 1 :: if low = high' + 1 then sliceCounts high low' t else []
    else []
  | _, _ => []

def pushCounts (parts : List Term) (t : Term) : List Count :=
  match parts with
  | [] => []
  | last :: _ => joinCounts last t

/-- The counts of pushing the terms one by one. -/
def joinPartsCounts (parts : List Term) : List Term → List Count
  | [] => []
  | t :: ts => pushCounts parts t ++ joinPartsCounts (pushPart parts t) ts

def mkConcatCounts (parts : List Term) : List Count :=
  joinPartsCounts [] (parts.flatMap flatten) ++
    match joinParts parts with
    | [t, u] => if t.isZero then mkZeroExtendCounts t.width u else []
    | _ => []

mutual

def mkExtractCounts (high low : Nat) (t : Term) : List Count :=
  sliceCounts high low t ++
    if low = 0 ∧ high + 1 = t.width then [] else
    match t with
    | extract _ low' x =>
      sum high low' :: sum low low' :: mkExtractCounts (high + low') (low + low') x
    | concat ts => pieceCounts high low ts ++ mkConcatCounts (pieces high low ts)
    | zeroExtend _ x =>
      if high < x.width then mkExtractCounts high low x
      else if x.width ≤ low then []
      else
        mkExtractCounts (x.width - 1) low x ++
          mkConcatCounts [zero (high - x.width + 1), mkExtract (x.width - 1) low x]
    | _ => []

/-- The least significant part comes first here. -/
def pieceCounts (high low : Nat) : List Term → List Count
  | [] => []
  | t :: ts =>
    let bottom := totalWidth ts
    let top := bottom + t.width - 1
    pieceCounts high low ts ++ difference (bottom + t.width) 1 ::
      if top < low ∨ high < bottom then []
      else
        difference (min high top) bottom ::
          mkExtractCounts (min high top - bottom) (max low bottom - bottom) t

end

/-! ## Normal forms -/

mutual

def normalCounts : Term → List Count
  | lit _ _ => []
  | sym _ _ => []
  | unary _ t => t.normalCounts ++ t.normalize.widthCounts
  | binary op l r =>
    l.normalCounts ++ r.normalCounts ++ mkBinaryCounts op l.normalize r.normalize
  | compare _ l r => l.normalCounts ++ r.normalCounts ++ mkCompareCounts l.normalize r.normalize
  | extract high low t => t.normalCounts ++ mkExtractCounts high low t.normalize
  | concat ts => normalCountsList ts ++ mkConcatCounts (normalizeList ts)
  | zeroExtend bits t => t.normalCounts ++ mkZeroExtendCounts bits t.normalize
  | signExtend bits t => t.normalCounts ++ mkSignExtendCounts bits t.normalize
  | apply _ ts _ => normalCountsList ts
  | select _ t _ => t.normalCounts

def normalCountsList : List Term → List Count
  | [] => []
  | t :: ts => t.normalCounts ++ normalCountsList ts

end

/-! ## Evaluation -/

mutual

/-- What follows an operand is formed only if the operand has a number. -/
def evaluationCounts (b : Bindings) : Term → List Count
  | lit _ _ => []
  | sym _ _ => []
  | unary _ t => t.evaluationCounts b ++ whenSome (t.evaluate b) t.widthCounts
  | binary _ l r =>
    l.evaluationCounts b ++ whenSome (l.evaluate b)
      (r.evaluationCounts b ++ whenSome (r.evaluate b) l.widthCounts)
  | compare _ l r =>
    l.evaluationCounts b ++ whenSome (l.evaluate b)
      (r.evaluationCounts b ++ whenSome (r.evaluate b) l.widthCounts)
  | extract high low t => t.evaluationCounts b ++ whenSome (t.evaluate b) (spanCounts high low)
  | concat ts => evaluationCountsList b ts
  | zeroExtend _ t => t.evaluationCounts b
  | signExtend bits t =>
    t.widthCounts ++ t.evaluationCounts b ++
      match t.evaluate b with
      | some v => if Word.isNegative v t.width then [sum t.width bits] else []
      | none => []
  | apply _ _ _ => []
  | select _ _ _ => []

def evaluationCountsList (b : Bindings) : List Term → List Count
  | [] => []
  | t :: ts =>
    t.widthCounts ++ t.evaluationCounts b ++ whenSome (t.evaluate b) (evaluationCountsList b ts)

end

end Term

end SymWord
