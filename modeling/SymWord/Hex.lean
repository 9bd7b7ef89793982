/-!
# Hexadecimal text

Words are written with `0x` and the fewest lower-case digits; zero is `0x0`.
-/

namespace SymWord

namespace Hex

def text (n : Nat) : String := "0x" ++ String.ofList (Nat.toDigits 16 n)

end Hex

end SymWord
