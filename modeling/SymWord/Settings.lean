import SymWord.Memory.Region

/-!
# Settings

What a run of the engine is told in advance: how wide addresses are, how many models to list, where
heap and stack lie, how long a solver may take, and the name of the worker that runs it.
-/

namespace SymWord

structure Settings where
  addressWidth : Nat
  /-- Zero for no limit. -/
  modelLimit : Nat
  heap : AddressRange
  stackFloor : Nat
  /-- In milliseconds; zero for no timeout. -/
  timeout : Nat
  /-- What the names of this worker's symbols begin with. -/
  scope : Option String
  deriving DecidableEq

namespace Settings

/-- Programs with 64-bit addresses. -/
def wide : Settings where
  addressWidth := 64
  modelLimit := 10
  heap := ⟨0x10000000, 0x7fff00000000⟩
  stackFloor := 0x7fff00000000
  timeout := 0
  scope := none

/-- Programs with 32-bit addresses. -/
def narrow : Settings :=
  { wide with
    addressWidth := 32
    heap := ⟨0x10000000, 0xbfff0000⟩
    stackFloor := 0xbfff0000 }

instance : Inhabited Settings := ⟨wide⟩

end Settings

end SymWord
