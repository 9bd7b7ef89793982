import SymWord.Term.Counts

/-!
# Values

A value is what a register or a memory cell holds: a term in normal form. It is concrete when the
term is a literal. The constructors `ofNat`, `ofInt` and `symbol` ask for at least one bit.

The width of a value is taken when the value is made. So a value is made from a term only where all
the counts fit that were formed on the way to the term and are formed for its width (`counted`).
-/

namespace SymWord

structure Value where
  term : Term
  deriving DecidableEq

namespace Value

def ofTerm (t : Term) : Value := ⟨t.normalize⟩

/-- The value, after the counts that were formed on the way to it. -/
def counted (v : Value) (cs : List Count) : Except Error Value := do
  Count.form (cs ++ v.term.widthCounts)
  return v

/-- The value of any tree. -/
def ofTree (t : Term) : Except Error Value := (ofTerm t).counted t.normalCounts

/-- The number reduced to the width. -/
def ofNat (n w : Nat) : Except Error Value :=
  if w = 0 then .error .zeroWidth else .ok ⟨.const n w⟩

/-- The integer in two's complement. -/
def ofInt (n : Int) (w : Nat) : Except Error Value :=
  if w = 0 then .error .zeroWidth else .ok ⟨.lit (Word.ofSigned n w) w⟩

def symbol (name : String) (w : Nat) : Except Error Value :=
  if w = 0 then .error .zeroWidth else .ok ⟨.sym name w⟩

def ofBool (b : Bool) : Value := ⟨.ofBool b⟩

def width (v : Value) : Nat := v.term.width

/-- The number of a concrete value. -/
def toNat? (v : Value) : Option Nat := v.term.value?

theorem term_of_toNat? {v : Value} {n : Nat} (h : v.toNat? = some n) : v.term = .lit n v.width := by
  obtain ⟨t⟩ := v
  cases t with
  | lit m w =>
    cases h
    rfl
  | _ => cases h

def isConcrete (v : Value) : Bool := v.term.isLit

/-- The number of a concrete value that 64 bits can hold. -/
def toUnsigned64? (v : Value) : Option Nat := v.toNat?.filter (· < Word.size 64)

/-- The integer of a concrete value in two's complement, if 64 bits can hold it. -/
def toSigned64? (v : Value) : Option Int :=
  match v.term with
  | .lit n w =>
    let i := Word.toSigned n w
    if -(Word.size 63 : Int) ≤ i ∧ i < Word.size 63 then some i else none
  | _ => none

/-- The name of a value that is a symbol and nothing more. -/
def symbolName? (v : Value) : Option String :=
  match v.term with
  | .sym n _ => some n
  | _ => none

def text (v : Value) : String := v.term.text

end Value

end SymWord
