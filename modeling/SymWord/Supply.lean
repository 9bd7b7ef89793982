import SymWord.Letters
import SymWord.Settings
import SymWord.Value

/-!
# The supply of symbols

A supply hands out the unknowns of a run: general ones, unread memory cells, words of the output
stream, and symbols that the caller names. The first three are numbered by counters of their own.
Their names hold a `#`, which names from callers must not, and begin with the scope of the supply,
so symbols of different origin stay apart.
-/

namespace SymWord

/-- One more than the greatest count of symbols. -/
def Counter.limit : Nat := 18446744073709551616

/-- A count of symbols, kept in 64 bits. -/
abbrev Counter := Fin Counter.limit

namespace Counter

def zero : Counter := ⟨0, by decide⟩

/-- One more, taken round at the limit. -/
def next (c : Counter) : Counter := ⟨(c.val + 1) % limit, Nat.mod_lt _ (by decide)⟩

end Counter

structure Supply where
  /-- The width of symbols for which none is given. -/
  width : Nat
  scope : Option String
  general : Counter
  memory : Counter
  output : Counter
  deriving DecidableEq

namespace Supply

/-- The number of the general name `v#x`, which is left out: `x` alone is the end address. -/
def skipped : Counter := ⟨23, by decide⟩

def ofWidth (w : Nat) (scope : Option String) : Except Error Supply :=
  if w = 0 then .error .zeroWidth else .ok ⟨w, scope, .zero, .zero, .zero⟩

def ofSettings (c : Settings) : Except Error Supply := ofWidth c.addressWidth c.scope

instance : Inhabited Supply := ⟨⟨64, none, .zero, .zero, .zero⟩⟩

/-- The name inside the scope of the supply. -/
def qualify (s : Supply) (name : String) : String :=
  match s.scope with
  | some scope => scope ++ ":" ++ name
  | none => name

/-- The number of the next general symbol. -/
def nextGeneral (s : Supply) : Counter :=
  if s.general = skipped then s.general.next else s.general

def generalName (s : Supply) (n : Nat) : String := s.qualify ("v#" ++ Letters.text n)

def memoryName (s : Supply) (n : Nat) : String := s.qualify ("m#" ++ Letters.text n)

/-- The symbol that the words of the output stream are counted from. -/
def outputRoot (s : Supply) : String := s.qualify "#stdout"

/-- The counter goes on also when the width is refused. -/
def fresh (s : Supply) (w : Nat) : Except Error Value × Supply :=
  (Value.symbol (s.generalName s.nextGeneral.val) w, { s with general := s.nextGeneral.next })

/-- The counter goes on also when the width is refused. -/
def freshMemory (s : Supply) (w : Nat) : Except Error Value × Supply :=
  (Value.symbol (s.memoryName s.memory.val) w, { s with memory := s.memory.next })

/-- The root of the output stream plus the number of words before this one. -/
def freshOutput (s : Supply) (w : Nat) : Value × Supply :=
  (⟨.mkBinary .add (.sym s.outputRoot w) (.const s.output.val w)⟩,
    { s with output := s.output.next })

/-- Fails on names that could be generated ones. -/
def checkName (name : String) : Except Error Unit :=
  if '#' ∈ name.toList then .error (.reservedName name) else .ok ()

/-- A segment register. -/
def segment (name : String) (w : Nat) : Except Error Value := do
  checkName name
  Value.symbol ("_" ++ name) w

def named (name : String) (w : Nat) : Except Error Value := do
  checkName name
  Value.symbol name w

def endName : String := "x"

def bottomName : String := "Bottom"

/-- The address at which a run ends. -/
def endAddress (w : Nat) : Except Error Value := Value.symbol endName w

/-- The undefined value. -/
def bottom (w : Nat) : Except Error Value := Value.symbol bottomName w

def isEndAddress (v : Value) : Bool := v.symbolName? == some endName

def isBottom (v : Value) : Bool := v.symbolName? == some bottomName

/-- Starts the general and memory symbols again. -/
def reset (s : Supply) : Supply := { s with general := .zero, memory := .zero }

def resetOutput (s : Supply) : Supply := { s with output := .zero }

/-- The value of a place where two paths meet. What arrives is kept if it is symbolic, if it is one
of the `known` addresses, or if the other path has the same number; otherwise it becomes unknown. -/
def merge (s : Supply) (known : List Nat) (current arriving : Value) :
    Except Error Value × Supply :=
  match arriving.toNat? with
  | none => (.ok arriving, s)
  | some n =>
    if n ∈ known ∨ current.toNat? = some n then (.ok arriving, s) else s.fresh arriving.width

end Supply

end SymWord
