import SymWord.Dictionary
import SymWord.Error
import SymWord.Text.Blank
import SymWord.Text.Lines

/-!
# Predefined constraints

Constraints on calls of functions that are not modelled, given as text with one constraint a line:
the name of the function, white space, and an expression that is not looked into. A tab counts as a
space, blank lines are skipped, and the expressions of one function stay in the order of the lines.
-/

namespace SymWord

/-- The expressions for each function, at least one. -/
abbrev Constraints := Dictionary (List String)

namespace Constraints

def add (c : Constraints) (function expression : String) : Constraints :=
  c.upsert function fun old => old.getD [] ++ [expression]

/-- What a line says. -/
inductive Line where
  | blank
  | entry (function expression : List Char)
  /-- There is no expression after this text. -/
  | incomplete (text : List Char)

def spaceForTab (c : Char) : Char := if c = '\t' then ' ' else c

def Line.ofChars (cs : List Char) : Line :=
  let line := (Text.trim cs).map spaceForTab
  if line = [] then .blank
  else
    let name := Text.trim (line.takeWhile (· ≠ ' '))
    match line.dropWhile (· ≠ ' ') with
    | [] => .incomplete line
    | _ :: rest => if Text.trim rest = [] then .incomplete name else .entry name (Text.trim rest)

/-- Takes in the line with number `n`. -/
def addLine (c : Constraints) (n : Nat) (cs : List Char) : Except Error Constraints :=
  match Line.ofChars cs with
  | .blank => .ok c
  | .entry f e => .ok (c.add (String.ofList f) (String.ofList e))
  | .incomplete text => .error (.noConstraint n (String.ofList text))

/-- Takes in lines that are numbered from `n` on. Fails on the first that is no text, or of which
only a name can be read. -/
def addLines (c : Constraints) (n : Nat) : List (Option (List Char)) → Except Error Constraints
  | [] => .ok c
  | none :: _ => .error .notUtf8
  | some cs :: rest => do addLines (← c.addLine n cs) (n + 1) rest

def ofText (s : String) : Except Error Constraints :=
  addLines .empty 1 ((Text.lines '\n' s.toList).map some)

/-- The characters of a line of bytes in UTF-8. -/
def decode? (bytes : List UInt8) : Option (List Char) :=
  (String.fromUTF8? ⟨bytes.toArray⟩).map String.toList

def ofBytes (bytes : List UInt8) : Except Error Constraints :=
  addLines .empty 1 ((Text.lines 10 bytes).map decode?)

end Constraints

end SymWord
