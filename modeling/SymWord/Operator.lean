import SymWord.Word

/-!
# Operators

The operators of bitvector terms. Each one has a symbol and a value on plain numbers: operands are
first reduced to the given width, so `eval` is defined for numbers of any size. Folding of
literals and evaluation of terms both go through `eval`.
-/

namespace SymWord

inductive UnaryOp where
  | not
  | neg
  deriving DecidableEq

namespace UnaryOp

def symbol : UnaryOp → String
  | not => "~"
  | neg => "-"

def all : List UnaryOp := [not, neg]

def ofSymbol? (s : String) : Option UnaryOp := all.find? (·.symbol == s)

def eval (op : UnaryOp) (a w : Nat) : Nat :=
  match op with
  | not => Word.complement a w
  | neg => Word.negate a w

end UnaryOp

/-- Operators on two words of one width with a word of that width as result. -/
inductive BinaryOp where
  | add
  | sub
  | mul
  | udiv
  | urem
  | sdiv
  | srem
  | and
  | or
  | xor
  | shl
  | lshr
  | ashr
  deriving DecidableEq

namespace BinaryOp

/-- The plain signs of division and remainder are signed, and `>>` fills with the sign bit. -/
def symbol : BinaryOp → String
  | add => "+"
  | sub => "-"
  | mul => "*"
  | udiv => "/u"
  | urem => "%u"
  | sdiv => "/"
  | srem => "%"
  | and => "&"
  | or => "|"
  | xor => "^"
  | shl => "<<"
  | lshr => ">>>"
  | ashr => ">>"

def all : List BinaryOp :=
  [add, sub, mul, udiv, urem, sdiv, srem, and, or, xor, shl, lshr, ashr]

def ofSymbol? (s : String) : Option BinaryOp := all.find? (·.symbol == s)

def isCommutative : BinaryOp → Bool
  | add | mul | and | or | xor => true
  | _ => false

/-- Whether literals of a chain `(x op c) op d` can be put together. -/
def isAssociative (op : BinaryOp) : Bool := op.isCommutative

/-- The value on words that are already reduced. -/
def onWords (op : BinaryOp) (a b w : Nat) : Nat :=
  match op with
  | add => Word.truncate (a + b) w
  | sub => Word.truncate (a + Word.negate b w) w
  | mul => Word.truncate (a * b) w
  | udiv => Word.udiv a b w
  | urem => Word.urem a b
  | sdiv => Word.sdiv a b w
  | srem => Word.srem a b w
  | and => a &&& b
  | or => a ||| b
  | xor => a ^^^ b
  | shl => Word.shl a b w
  | lshr => Word.lshr a b w
  | ashr => Word.ashr a b w

def eval (op : BinaryOp) (a b w : Nat) : Nat :=
  op.onWords (Word.truncate a w) (Word.truncate b w) w

end BinaryOp

inductive Comparison where
  | eq
  | ne
  | slt
  | sgt
  | sle
  | sge
  | ult
  | ugt
  | ule
  | uge
  deriving DecidableEq

namespace Comparison

/-- The plain signs are signed. -/
def symbol : Comparison → String
  | eq => "=="
  | ne => "!="
  | slt => "<"
  | sgt => ">"
  | sle => "<="
  | sge => ">="
  | ult => "<u"
  | ugt => ">u"
  | ule => "<=u"
  | uge => ">=u"

def all : List Comparison := [eq, ne, slt, sgt, sle, sge, ult, ugt, ule, uge]

/-- Reading also takes `<>` for `ne`. -/
def ofSymbol? (s : String) : Option Comparison :=
  if s = "<>" then some ne else all.find? (·.symbol == s)

/-- The comparison that holds exactly where this one does not. -/
def negate : Comparison → Comparison
  | eq => ne
  | ne => eq
  | slt => sge
  | sge => slt
  | sgt => sle
  | sle => sgt
  | ult => uge
  | uge => ult
  | ugt => ule
  | ule => ugt

/-- The comparison that says the same of the operands exchanged. -/
def swap : Comparison → Comparison
  | eq => eq
  | ne => ne
  | slt => sgt
  | sgt => slt
  | sle => sge
  | sge => sle
  | ult => ugt
  | ugt => ult
  | ule => uge
  | uge => ule

/-- Whether a word compares so with itself. -/
def isReflexive : Comparison → Bool
  | eq | sle | sge | ule | uge => true
  | _ => false

/-- Whether this is `eq` or `ne`. -/
def isEquality : Comparison → Bool
  | eq | ne => true
  | _ => false

/-- The truth on words that are already reduced. -/
def onWords (op : Comparison) (a b w : Nat) : Bool :=
  match op with
  | eq => a == b
  | ne => a != b
  | ult => a < b
  | ugt => b < a
  | ule => a ≤ b
  | uge => b ≤ a
  | slt => Word.toSigned a w < Word.toSigned b w
  | sgt => Word.toSigned b w < Word.toSigned a w
  | sle => Word.toSigned a w ≤ Word.toSigned b w
  | sge => Word.toSigned b w ≤ Word.toSigned a w

def eval (op : Comparison) (a b w : Nat) : Bool :=
  op.onWords (Word.truncate a w) (Word.truncate b w) w

end Comparison

end SymWord
