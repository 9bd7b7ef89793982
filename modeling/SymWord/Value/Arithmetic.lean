import SymWord.Term.Substitution
import SymWord.Value

/-!
# Arithmetic and comparison of values

Operands have to agree in width. A truth value is one bit wide.
-/

namespace SymWord

/-- How an update of a value takes in the current one. -/
inductive Combination where
  | or
  | and
  | replace
  deriving DecidableEq

namespace Combination

def name : Combination → String
  | or => "or"
  | and => "and"
  | replace => "replace"

/-- Reading also takes `r` for `replace`. -/
def ofName? : String → Option Combination
  | "or" => some or
  | "and" => some and
  | "replace" => some replace
  | "r" => some replace
  | _ => none

end Combination

namespace Value

/-- Fails unless the widths agree. -/
def agree (x y : Value) : Except Error Unit :=
  if x.width = y.width then .ok () else .error (.widthMismatch x.width y.width)

def binary (op : BinaryOp) (x y : Value) : Except Error Value := do
  agree x y
  return ⟨.mkBinary op x.term y.term⟩

/-- The operator is given by its symbol, which is looked up before widths are compared. -/
def arithmetic (symbol : String) (x y : Value) : Except Error Value :=
  match BinaryOp.ofSymbol? symbol with
  | some op => binary op x y
  | none => .error (.unknownOperator symbol)

def compare (op : Comparison) (x y : Value) : Except Error Value := do
  agree x y
  return ⟨.mkCompare op x.term y.term⟩

/-- The comparison is given by its symbol, which is looked up before widths are compared. -/
def comparison (symbol : String) (x y : Value) : Except Error Value :=
  match Comparison.ofSymbol? symbol with
  | some op => compare op x y
  | none => .error (.unknownComparison symbol)

def complement (v : Value) : Value := ⟨.mkUnary .not v.term⟩

def negate (v : Value) : Value := ⟨.mkUnary .neg v.term⟩

/-- The negation of a truth value. -/
def not (v : Value) : Except Error Value :=
  if v.width = 1 then .ok v.complement else .error (.widthMismatch 1 v.width)

/-- Whether the value is below zero in two's complement, as a truth value. -/
def isNegative (v : Value) : Value := ⟨.mkCompare .slt v.term (.zero v.width)⟩

/-- Whether the value is zero or above in two's complement, as a truth value. -/
def isNonNegative (v : Value) : Value := ⟨.mkCompare .sge v.term (.zero v.width)⟩

def combine (c : Combination) (current update : Value) : Except Error Value :=
  match c with
  | .or => binary .or current update
  | .and => binary .and current update
  | .replace => do
    agree current update
    return update

/-- The value with a term for every occurrence of another one, brought to normal form again. -/
def substitute (v old new : Value) : Except Error Value := do
  agree old new
  if v.isConcrete then return v else ofTree (.replace old.term new.term v.term)

/-- Whether two values are the same, also after bringing terms to normal form once more. -/
def strictEqual (x y : Value) : Except Error Bool :=
  if x.isConcrete || y.isConcrete || x == y then .ok (x == y)
  else if x.width = y.width then do
    Count.form (x.term.normalCounts ++ y.term.normalCounts)
    return x.term.normalize == y.term.normalize
  else .ok false

end Value

end SymWord
