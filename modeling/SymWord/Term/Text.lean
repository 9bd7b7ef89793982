import SymWord.Hex
import SymWord.Term.Basic

/-!
# The text of a term

Literals are hexadecimal, operators stand between their operands inside parentheses, and the other
nodes are written as calls or with square brackets. Widths of leaves are not written.
-/

namespace SymWord

namespace Term

mutual

def text : Term → String
  | lit v _ => Hex.text v
  | sym n _ => n
  | unary op t => "(" ++ op.symbol ++ t.text ++ ")"
  | binary op l r => "(" ++ l.text ++ " " ++ op.symbol ++ " " ++ r.text ++ ")"
  | compare op l r => "(" ++ l.text ++ " " ++ op.symbol ++ " " ++ r.text ++ ")"
  | extract high low t => t.text ++ "[" ++ high.repr ++ ":" ++ low.repr ++ "]"
  | concat ts => "concat(" ++ ", ".intercalate (texts ts) ++ ")"
  | zeroExtend bits t => "zext" ++ bits.repr ++ "(" ++ t.text ++ ")"
  | signExtend bits t => "sext" ++ bits.repr ++ "(" ++ t.text ++ ")"
  | apply f ts _ => f ++ "(" ++ ", ".intercalate (texts ts) ++ ")"
  | select a t _ => a ++ "[" ++ t.text ++ "]"

def texts : List Term → List String
  | [] => []
  | t :: ts => t.text :: texts ts

end

end Term

end SymWord
