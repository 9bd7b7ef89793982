import SymWord.Solver.Backend

/-!
# Search through all assignments

A backend that tries every assignment of the declared bitvectors in turn. Assignments are numbered:
the first declared bitvector takes the lowest bits of the number, the next one the bits above it,
and so on. Uninterpreted functions and arrays are taken to be zero.
-/

namespace SymWord

namespace Term

mutual

/-- The term with every application and array read replaced by zero. -/
def erase : Term → Term
  | lit v w => lit v w
  | sym n w => sym n w
  | unary op t => unary op t.erase
  | binary op l r => binary op l.erase r.erase
  | compare op l r => compare op l.erase r.erase
  | extract high low t => extract high low t.erase
  | concat ts => concat (eraseList ts)
  | zeroExtend bits t => zeroExtend bits t.erase
  | signExtend bits t => signExtend bits t.erase
  | apply _ _ w => zero w
  | select _ _ w => zero w

def eraseList : List Term → List Term
  | [] => []
  | t :: ts => t.erase :: eraseList ts

end

end Term

namespace Exhaustive

/-- The names and widths of the bitvectors that are searched. -/
def constants (ds : List Declaration) : List (String × Nat) := ds.filterMap (·.constant?)

def totalBits (cs : List (String × Nat)) : Nat := cs.foldl (fun n c => n + c.2) 0

/-- The numbers that the assignment with number `k` gives. -/
def assignment : List (String × Nat) → Nat → List (String × Nat)
  | [], _ => []
  | (n, w) :: cs, k => (n, Word.truncate k w) :: assignment cs (k >>> w)

def bindings (numbers : List (String × Nat)) : Bindings := fun n => Dictionary.lookup n numbers

/-- Whether all terms hold. They are tried in order up to the first that does not. -/
def holds (b : Bindings) : List Term → Except Error Bool
  | [] => .ok true
  | t :: ts => do
    Count.form (t.evaluationCounts b)
    match t.evaluate b with
    | none => .error (.notEvaluable t)
    | some v => if v = 0 then .ok false else holds b ts

/-- The first of the `n` assignments from number `k` on under which all terms hold. -/
def search (cs : List (String × Nat)) (ts : List Term) : Nat → Nat → Except Error (Option Nat)
  | 0, _ => .ok none
  | n + 1, k => do
    if ← holds (bindings (assignment cs k)) ts then return some k
    search cs ts n (k + 1)

/-- The model of the assignment with number `k`. -/
def model : List (String × Nat) → Nat → Model → Except Error Model
  | [], _, m => .ok m
  | (n, w) :: cs, k, m => do
    let v ← Value.ofNat k w
    model cs (k >>> w) (m.insert n v)

def check (maxBits : Nat) (ds : List Declaration) (ts : List Term) : Except Error Verdict :=
  let cs := constants ds
  let bits := totalBits cs
  if Width.limit ≤ bits then .error .overflow
  else if maxBits < bits then .error (.searchSpace bits maxBits)
  else do
    match ← search cs ts (Word.size bits) 0 with
    | some k => return .satisfiable (← model cs k .empty)
    | none => return .unsatisfiable

/-- The state of a session is the list of its assertions. -/
def backend (maxBits : Nat) : Backend (List Term) where
  name := "exhaustive"
  openSession := set ([] : List Term)
  assert t := modify (· ++ [t.erase])
  check ds := do liftExcept (check maxBits ds (← get))

end Exhaustive

end SymWord
