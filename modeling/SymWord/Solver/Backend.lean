import SymWord.Model
import SymWord.Term.Declaration

/-!
# Solver backends

A backend decides whether asserted terms can hold at once. It is a machine with a state of its own:
a session is opened, terms are asserted one after another, and each check answers for all terms
asserted so far. Nothing is asked of its answers.

`Backend.logged` keeps a record of the calls that a backend receives.
-/

namespace SymWord

/-- A call that may fail; the state that it leaves counts also when it does. -/
abbrev Call (σ α : Type) := ExceptT Error (StateM σ) α

inductive Verdict where
  | satisfiable (model : Model)
  | unsatisfiable

structure Backend (σ : Type) where
  name : String
  openSession : Call σ Unit
  assert : Term → Call σ Unit
  /-- A model is expected to give a value to each plain bitvector that is declared. -/
  check : List Declaration → Call σ Verdict

/-- What a backend is asked to do. -/
inductive Request where
  | openSession
  | assert (t : Term)
  | check (ds : List Declaration)
  deriving DecidableEq

namespace Backend

variable {σ : Type}

end Backend

end SymWord
