import SymWord.Settings
import SymWord.Solver.Query

/-!
# Enumeration of models

The assignments under which predicates hold, one after another. After each model the enumeration
asserts that the next one differs from it, so a sound backend does not find a model twice. It ends
when the backend finds no more, when the backend fails, or at its limit.
-/

namespace SymWord

/-- A list of models in the making. -/
structure Enumeration where
  declarations : List Declaration
  /-- How many models may still come, if there is a limit. -/
  remaining : Option Nat
  done : Bool

namespace Enumeration

variable {σ : Type}

/-- An enumeration of at most `limit` models, or without limit for zero. -/
def start (B : Backend σ) (ps : List Value) (limit : Nat) : Call σ Enumeration := do
  let ds ← Query.prepare B ps
  return ⟨ds, if limit = 0 then none else some limit, false⟩

/-- Says that a declared bitvector has another value than in the model. -/
def differs? (m : Model) (d : Declaration) : Option Term := do
  let (n, w) ← d.constant?
  let v ← m.get? n
  return .compare .ne (.sym n w) v.term

/-- Says that some declared bitvector has another value than in the model. -/
def blockingClause (ds : List Declaration) (m : Model) : Term :=
  match ds.filterMap (differs? m) with
  | [] => .ofBool false
  | t :: ts => ts.foldl (.binary .or) t

/-- Why models over a declaration are not listed: they say nothing of functions and arrays. -/
def refusal? : Declaration → Option Error
  | .constant _ _ => none
  | .function n _ _ => some (.functionInModel n)
  | .array n _ _ => some (.arrayInModel n)

/-- Finds one more model and rules it out for what follows. -/
def advance (B : Backend σ) (ds : List Declaration) : Call σ (Option Model) := do
  match ← B.check ds with
  | .unsatisfiable => return none
  | .satisfiable m =>
    match ds.findSome? refusal? with
    | some e => throw e
    | none =>
      B.assert (blockingClause ds m)
      return some m

/-- The next model, or the failure that ends the enumeration, or nothing once it has ended. -/
def next (B : Backend σ) (e : Enumeration) :
    StateM σ (Option (Except Error Model) × Enumeration) := do
  if e.done || e.remaining == some 0 then return (none, e)
  match ← (advance B e.declarations).run with
  | .ok (some m) => return (some (.ok m), { e with remaining := e.remaining.map (· - 1) })
  | .ok none => return (none, { e with done := true })
  | .error err => return (some (.error err), { e with done := true })

/-- The answers of `n` requests for the next model. -/
def nexts (B : Backend σ) : Nat → Enumeration → StateM σ (List (Option (Except Error Model)))
  | 0, _ => return []
  | n + 1, e => do
    let (a, e') ← next B e
    return a :: (← nexts B n e')

/-- All models up to the end, if it is reached within `fuel` steps. -/
def collect (B : Backend σ) : Nat → Enumeration → Call σ (Option (List Model))
  | 0, _ => return none
  | fuel + 1, e => do
    match ← next B e with
    | (none, _) => return some []
    | (some (.error err), _) => throw err
    | (some (.ok m), e') => return (← collect B fuel e').map (m :: ·)

/-- At most `limit` models of the predicates, or all for zero, if `fuel` steps reach the end. One
step more than there are models is enough. -/
def models (B : Backend σ) (fuel : Nat) (ps : List Value) (limit : Nat) :
    Call σ (Option (List Model)) := do
  collect B fuel (← start B ps limit)

/-- The models of the predicates up to the limit of the settings. -/
def configured (B : Backend σ) (fuel : Nat) (c : Settings) (ps : List Value) :
    Call σ (Option (List Model)) :=
  models B fuel ps c.modelLimit

end Enumeration

end SymWord
