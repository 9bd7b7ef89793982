import SymWord.Solver.Backend

/-!
# Queries

Whether predicates can hold at once. Predicates are values of one bit. Their widths and the sorts of
their names are checked before the backend is asked anything, and a predicate that is literally
true is not sent to it.
-/

namespace SymWord

namespace Query

variable {σ : Type}

/-- The terms of predicates that are not literally true. Fails on the first one that is not one bit
wide. -/
def terms : List Value → Except Error (List Term)
  | [] => .ok []
  | p :: ps =>
    if p.width = 1 then do
      let ts ← terms ps
      return if p.toNat? = some 1 then ts else p.term :: ts
    else .error (.widthMismatch 1 p.width)

/-- Adds a declaration. Fails if its name is there already with another sort. -/
def declare (ds : List Declaration) (d : Declaration) : Except Error (List Declaration) :=
  match ds.find? (·.name == d.name) with
  | none => .ok (ds ++ [d])
  | some first =>
    if first = d then .ok ds
    else if first.width = d.width then .error (.sortConflict d.name)
    else .error (.widthMismatch first.width d.width)

/-- The declarations of all terms, one to a name. -/
def declarations (ts : List Term) : Except Error (List Declaration) :=
  (ts.flatMap Term.declarations).foldlM declare []

/-- Opens a session with the predicates asserted, and gives what they declare. -/
def prepare (B : Backend σ) (ps : List Value) : Call σ (List Declaration) := do
  let ts ← terms ps
  let ds ← declarations ts
  B.openSession
  ts.forM B.assert
  return ds

/-- Whether the predicates can hold at once. -/
def check (B : Backend σ) (ps : List Value) : Call σ Verdict := do
  B.check (← prepare B ps)

end Query

end SymWord
