/-!
# Words

A `w`-bit word is a natural number below `2 ^ w`. The operations here take a natural number for
the word it leaves modulo `2 ^ w`, and read the top bit of a word as its sign.

Widths run up to billions, so nothing computes `2 ^ w` unless the result needs that many bits.
-/

namespace SymWord

namespace Word

/-- How many words there are of width `w`: two to the power of `w`. -/
def size (w : Nat) : Nat := 1 <<< w

/-- The number modulo `2 ^ w`. One that is short enough is left alone. -/
def truncate (v w : Nat) : Nat := if v.log2 < w then v else v % size w

/-- The word with every bit set. -/
def mask (w : Nat) : Nat := size w - 1

/-- Whether `v` is the word with every bit set. -/
def isMask (v w : Nat) : Bool := w ≤ v.log2 + 1 && v + 1 == size w

/-- The sign bit. -/
def isNegative (v w : Nat) : Bool := 0 < w && v.testBit (w - 1)

/-- The integer that a word stands for in two's complement. -/
def toSigned (v w : Nat) : Int := if isNegative v w then (v : Int) - size w else v

/-- Every bit flipped. -/
def complement (v w : Nat) : Nat := mask w - truncate v w

/-- The word of an integer in two's complement. -/
def ofSigned (n : Int) (w : Nat) : Nat :=
  match n with
  | .ofNat v => truncate v w
  | .negSucc v => complement v w

def negate (v w : Nat) : Nat := if truncate v w = 0 then 0 else size w - truncate v w

/-- The distance from zero of a word read with its sign. -/
def magnitude (v w : Nat) : Nat := if isNegative v w then negate v w else v

/-- Division by zero gives every bit set. -/
def udiv (a b w : Nat) : Nat := if b = 0 then mask w else a / b

/-- The remainder by zero is the dividend. -/
def urem (a b : Nat) : Nat := a % b

/-- Signed division goes toward zero. -/
def sdiv (a b w : Nat) : Nat :=
  let q := udiv (magnitude a w) (magnitude b w) w
  if isNegative a w = isNegative b w then q else negate q w

/-- The signed remainder has the sign of the dividend. -/
def srem (a b w : Nat) : Nat :=
  let r := urem (magnitude a w) (magnitude b w)
  if isNegative a w then negate r w else r

/-- A shift by the width or more leaves nothing. -/
def shl (a s w : Nat) : Nat := if s < w then truncate (a <<< s) w else 0

def lshr (a s w : Nat) : Nat := if s < w then a >>> s else 0

/-- The shift right that fills with the sign bit. -/
def ashr (a s w : Nat) : Nat :=
  if isNegative a w then
    if s < w then (a >>> s) + (size w - size (w - s)) else mask w
  else lshr a s w

/-- The word of width `w` widened to `w'` by copies of its sign bit. -/
def signExtend (v w w' : Nat) : Nat :=
  if isNegative v w then v ||| (mask w' ^^^ mask w) else v

end Word

end SymWord
