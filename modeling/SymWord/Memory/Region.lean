/-!
# Regions of memory

The kinds of place that an address of a loaded program can lie in.
-/

namespace SymWord

/-- The addresses from `start` up to, and without, `stop`. -/
structure AddressRange where
  start : Nat
  stop : Nat
  deriving DecidableEq

namespace AddressRange

def contains (r : AddressRange) (a : Nat) : Bool := r.start ≤ a && a < r.stop

/-- An inverted range contains nothing, and an empty range is not inverted. -/
def isInverted (r : AddressRange) : Bool := r.stop < r.start

end AddressRange

inductive Region where
  | rodata
  | data
  | text
  | header
  | heap
  | stack
  deriving DecidableEq

namespace Region

def name : Region → String
  | rodata => "rodata"
  | data => "data"
  | text => "text"
  | header => "header"
  | heap => "heap"
  | stack => "stack"

/-- The regions in the order in which an address is classified. -/
def all : List Region := [rodata, data, text, header, heap, stack]

end Region

end SymWord
