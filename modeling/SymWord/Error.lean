import SymWord.Memory.Region
import SymWord.Term.Text

/-!
# Errors

Everything that can go wrong, by its cause, and the one place where causes are put into words.
-/

namespace SymWord

inductive Error where
  /-- A value needs at least one bit. -/
  | zeroWidth
  /-- A sum of counts passed the greatest count. -/
  | overflow
  /-- A difference of counts went below zero. -/
  | underflow
  | invalidRange (high low width : Nat)
  | widthMismatch (expected found : Nat)
  /-- There was nothing to put together. -/
  | empty
  | unknownOperator (symbol : String)
  | unknownComparison (symbol : String)
  /-- One name was used at two sorts of one width. -/
  | sortConflict (name : String)
  | functionInModel (name : String)
  | arrayInModel (name : String)
  | searchSpace (bits maxBits : Nat)
  | notEvaluable (assertion : Term)
  /-- A backend failed for a reason of its own. -/
  | unavailable (reason : String)
  | noConstraint (line : Nat) (text : String)
  | notUtf8
  | fileNotFound
  | invertedRange (region : Region) (range : AddressRange)
  | layoutInstalled
  | layoutMissing
  | reservedName (name : String)
  deriving DecidableEq

namespace Error

/-- A name inside a message. -/
def quoted (s : String) : String := "`" ++ s ++ "`"

def message : Error → String
  | zeroWidth => "bitvector width must be at least 1"
  | overflow => "attempt to add with overflow"
  | underflow => "attempt to subtract with overflow"
  | invalidRange high low width =>
    "Invalid bit range [" ++ high.repr ++ ":" ++ low.repr ++ "] for a " ++ width.repr ++
      "-bit value"
  | widthMismatch expected found =>
    "Width mismatch - expected " ++ expected.repr ++ " bits, found " ++ found.repr
  | empty => "Provided input was empty"
  | unknownOperator s => "Unsupported feature: arithmetic operator " ++ quoted s
  | unknownComparison s => "Unsupported feature: comparison operator " ++ quoted s
  | sortConflict n => "Unsupported feature: " ++ quoted n ++ " used with two different sorts"
  | functionInModel n =>
    "Unsupported feature: model enumeration over uninterpreted function " ++ quoted n
  | arrayInModel n => "Unsupported feature: model enumeration over array " ++ quoted n
  | searchSpace bits maxBits =>
    "Solver unavailable: search space of " ++ bits.repr ++ " bits exceeds " ++ maxBits.repr
  | notEvaluable t => "Solver unavailable: cannot evaluate " ++ quoted t.text
  | unavailable reason => "Solver unavailable: " ++ reason
  | noConstraint line text =>
    "Malformed constraint config - line " ++ line.repr ++ ": " ++ quoted text ++
      " has no constraint expression"
  | notUtf8 => "stream did not contain valid UTF-8"
  | fileNotFound => "No such file or directory (os error 2)"
  | invertedRange region range =>
    "Invalid binary layout: " ++ region.name ++ " range " ++ Hex.text range.start ++ ".." ++
      Hex.text range.stop ++ " is inverted"
  | layoutInstalled => "The binary layout has already been installed"
  | layoutMissing => "binary layout queried before install_layout"
  | reservedName n => "Symbol name " ++ quoted n ++ " is reserved for generated symbols"

end Error

end SymWord
