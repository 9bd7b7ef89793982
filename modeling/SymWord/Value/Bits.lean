import SymWord.Value

/-!
# Bits of values

Slices, extensions and concatenations of values, and single bits as truth values.
-/

namespace SymWord

namespace Value

/-- The bits from `high` down to `low`, both included. -/
def extract (v : Value) (high low : Nat) : Except Error Value :=
  if high < low ∨ v.width ≤ high then .error (.invalidRange high low v.width)
  else counted ⟨.mkExtract high low v.term⟩ (v.term.mkExtractCounts high low)

def bitAt (v : Value) (i : Nat) : Except Error Value := v.extract i i

/-- The bytes from `high` down to `low`, without the byte `high`. -/
def extractBytes (v : Value) (high low : Nat) : Except Error Value :=
  if low < high ∧ high * 8 < Width.limit then v.extract (high * 8 - 1) (low * 8)
  else .error (.invalidRange high low v.width)

/-- The lowest `n` bits. -/
def truncateTo (v : Value) (n : Nat) : Except Error Value :=
  if n = 0 then .error (.invalidRange 0 0 v.width) else v.extract (n - 1) 0

/-- Fails when `bits` more bits would pass the greatest width. -/
def checkExtension (v : Value) (bits : Nat) : Except Error Unit :=
  if v.width + bits < Width.limit then .ok () else .error (.invalidRange bits 0 v.width)

def zeroExtend (v : Value) (bits : Nat) : Except Error Value := do
  v.checkExtension bits
  return ⟨.mkZeroExtend bits v.term⟩

def signExtend (v : Value) (bits : Nat) : Except Error Value := do
  v.checkExtension bits
  return ⟨.mkSignExtend bits v.term⟩

/-- The most significant value comes first. -/
def concat (vs : List Value) : Except Error Value :=
  match vs with
  | [] => .error .empty
  | vs => counted ⟨.mkConcat (vs.map term)⟩ (Term.mkConcatCounts (vs.map term))

/-- Half the width, which has to be even. -/
def half (v : Value) : Except Error Nat :=
  if v.width % 2 = 0 then .ok (v.width / 2)
  else .error (.invalidRange (v.width - 1) (v.width / 2) v.width)

def upperHalf (v : Value) : Except Error Value := do
  let n ← v.half
  Count.form [.difference v.width 1]
  v.extract (v.width - 1) n

def lowerHalf (v : Value) : Except Error Value := do
  let n ← v.half
  Count.form [.difference n 1]
  v.extract (n - 1) 0

/-- Whether bit `i` is set, as a truth value. -/
def testBit (v : Value) (i : Nat) : Except Error Value :=
  counted ⟨.mkCompare .eq (.mkExtract i i v.term) (.ofBool true)⟩ (v.term.mkExtractCounts i i)

def topBit (v : Value) : Except Error Value := do
  Count.form [.difference v.width 1]
  v.testBit (v.width - 1)

def secondBit (v : Value) : Except Error Value :=
  if v.width < 2 then .error (.invalidRange 0 0 v.width) else v.testBit (v.width - 2)

def bottomBit (v : Value) : Except Error Value := v.testBit 0

/-- All bits put together by exclusive nor, the lowest first. -/
def xnorReduce (v : Value) : Except Error Value :=
  let step (acc : Term) (i : Nat) : Term :=
    .mkUnary .not (.mkBinary .xor acc (.mkExtract i i v.term))
  let bits := (List.range' 1 (v.width - 1)).foldl step (.mkExtract 0 0 v.term)
  let counts := (0 :: List.range' 1 (v.width - 1)).flatMap fun i => v.term.mkExtractCounts i i
  counted ⟨.mkCompare .eq bits (.ofBool true)⟩ counts

end Value

end SymWord
