import SymWord.Term.Normal.Operators
import SymWord.Term.Normal.Slices

/-!
# Normal forms

`normalize` brings a term to normal form from the leaves up. Terms in normal form are compared as
trees wherever values are compared.
-/

namespace SymWord

namespace Term

mutual

def normalize : Term → Term
  | lit v w => lit v w
  | sym n w => sym n w
  | unary op t => mkUnary op t.normalize
  | binary op l r => mkBinary op l.normalize r.normalize
  | compare op l r => mkCompare op l.normalize r.normalize
  | extract high low t => mkExtract high low t.normalize
  | concat ts => mkConcat (normalizeList ts)
  | zeroExtend bits t => mkZeroExtend bits t.normalize
  | signExtend bits t => mkSignExtend bits t.normalize
  | apply f ts w => apply f (normalizeList ts) w
  | select a t w => select a t.normalize w

def normalizeList : List Term → List Term
  | [] => []
  | t :: ts => t.normalize :: normalizeList ts

end

end Term

end SymWord
