/-!
# Letter numerals

The names `a`, …, `z`, `aa`, `ab`, … count from zero: shorter names come first, and names of one
length come in alphabetical order.
-/

namespace SymWord

namespace Letters

def letter (d : Nat) : Char := Char.ofNat ('a'.toNat + d)

def digits (n : Nat) : List Char :=
  if n < 26 then [letter n] else digits (n / 26 - 1) ++ [letter (n % 26)]

def text (n : Nat) : String := String.ofList (digits n)

end Letters

end SymWord
