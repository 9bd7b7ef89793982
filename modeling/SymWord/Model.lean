import SymWord.Dictionary
import SymWord.Value

/-!
# Models

A model gives values to symbols. Under a model a value becomes concrete if the model has a number
for each of its symbols and no uninterpreted function or array stands in the way.
-/

namespace SymWord

abbrev Model := Dictionary Value

namespace Model

/-- The numbers of the concrete values in the model. -/
def bindings (m : Model) : Bindings := fun n => (m.get? n).bind Value.toNat?

def evaluate (m : Model) (v : Value) : Except Error (Option Value) :=
  if v.isConcrete then .ok (some v)
  else do
    Count.form (v.term.evaluationCounts m.bindings)
    match v.term.evaluate m.bindings with
    | some n => (Value.ofNat n v.width).map some
    | none => .ok none

def text (m : Model) : String :=
  ", ".intercalate (m.entries.map fun (n, v) => n ++ ": " ++ v.text)

end Model

end SymWord
