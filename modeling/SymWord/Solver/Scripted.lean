import SymWord.Solver.Backend

/-!
# Backends with given answers

One that is offline, and one that answers from a script.
-/

namespace SymWord

/-- Every check fails. -/
def offline : Backend Unit where
  name := "unavailable"
  openSession := return ()
  assert _ := return ()
  check _ := throw (.unavailable "backend offline")

namespace Scripted

/-- What happens in a session, in advance. -/
structure Script where
  /-- The answers of the checks; when they are used up, nothing is satisfiable. -/
  answers : List (Except Error Verdict)
  /-- Why the session cannot be opened. -/
  openFailure : Option String
  /-- The number of the assertion that is rejected, counted from one. -/
  rejected : Option Nat

structure Session where
  answers : List (Except Error Verdict)
  asserted : Nat

def backend (script : Script) : Backend Session where
  name := "scripted"
  openSession := do
    if let some reason := script.openFailure then throw (.unavailable reason)
    set (⟨script.answers, 0⟩ : Session)
  assert _ := do
    let n := (← get).asserted + 1
    modify fun s => { s with asserted := n }
    if script.rejected = some n then throw (.unavailable ("assert " ++ n.repr ++ " rejected"))
  check _ := do
    match (← get).answers with
    | [] => return .unsatisfiable
    | a :: rest =>
      modify fun s => { s with answers := rest }
      liftExcept a

end Scripted

end SymWord
