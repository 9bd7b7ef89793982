import SymWord.Error
import SymWord.Settings

/-!
# Layouts

A layout says where the regions of a loaded program lie. Regions may overlap, and an address is
classified by the first region, in the order of `Region.all`, that contains it. One layout can be
installed for a whole run: the first valid one stays, and classification asks for it.
-/

namespace SymWord

structure Layout where
  rodata : AddressRange
  data : AddressRange
  text : AddressRange
  /-- The header lies below this address. -/
  headerEnd : Nat
  heap : AddressRange
  /-- The stack lies from this address up. -/
  stackFloor : Nat
  deriving DecidableEq

namespace Layout

/-- No sections yet, and heap and stack where the settings say. -/
def ofSettings (c : Settings) : Layout where
  rodata := ⟨0, 0⟩
  data := ⟨0, 0⟩
  text := ⟨0, 0⟩
  headerEnd := 0
  heap := c.heap
  stackFloor := c.stackFloor

instance : Inhabited Layout := ⟨ofSettings default⟩

def contains (l : Layout) (r : Region) (a : Nat) : Bool :=
  match r with
  | .rodata => l.rodata.contains a
  | .data => l.data.contains a
  | .text => l.text.contains a
  | .header => a < l.headerEnd
  | .heap => l.heap.contains a
  | .stack => l.stackFloor ≤ a

def classify (l : Layout) (a : Nat) : Option Region := Region.all.find? (l.contains · a)

/-- The regions that are given by two ends. -/
def ranges (l : Layout) : List (Region × AddressRange) :=
  [(.rodata, l.rodata), (.data, l.data), (.text, l.text), (.heap, l.heap)]

/-- Fails on the first inverted range. -/
def validate (l : Layout) : Except Error Unit :=
  match l.ranges.find? (·.2.isInverted) with
  | some (r, range) => .error (.invertedRange r range)
  | none => .ok ()

end Layout

/-- The layout of a run, once one has been installed. -/
structure Installation where
  layout? : Option Layout
  deriving DecidableEq

namespace Installation

/-- A run starts without a layout. -/
def empty : Installation := ⟨none⟩

/-- A layout that is not valid is refused before it is asked whether there is one already. -/
def install (i : Installation) (l : Layout) : Except Error Unit × Installation :=
  match l.validate, i.layout? with
  | .error e, _ => (.error e, i)
  | .ok (), some _ => (.error .layoutInstalled, i)
  | .ok (), none => (.ok (), ⟨some l⟩)

def classify (i : Installation) (a : Nat) : Except Error (Option Region) :=
  match i.layout? with
  | some l => .ok (l.classify a)
  | none => .error .layoutMissing

def contains (i : Installation) (r : Region) (a : Nat) : Except Error Bool :=
  match i.layout? with
  | some l => .ok (l.contains r a)
  | none => .error .layoutMissing

end Installation

end SymWord
