import SymWord.Term.Basic

/-!
# Occurrence and substitution

Both look for a term as a whole tree. A term that is found is replaced without looking inside it,
and the result is left as it is, not brought to normal form.
-/

namespace SymWord

namespace Term

mutual

/-- Whether `s` is a subtree. -/
def contains (s : Term) (t : Term) : Bool :=
  t = s || match t with
  | lit _ _ => false
  | sym _ _ => false
  | unary _ u => contains s u
  | binary _ l r => contains s l || contains s r
  | compare _ l r => contains s l || contains s r
  | extract _ _ u => contains s u
  | concat ts => anyContains s ts
  | zeroExtend _ u => contains s u
  | signExtend _ u => contains s u
  | apply _ ts _ => anyContains s ts
  | select _ u _ => contains s u

def anyContains (s : Term) : List Term → Bool
  | [] => false
  | t :: ts => contains s t || anyContains s ts

end

mutual

/-- The term with each outermost occurrence of `old` replaced by `new`. -/
def replace (old new : Term) (t : Term) : Term :=
  if t = old then new else
  match t with
  | lit v w => lit v w
  | sym n w => sym n w
  | unary op u => unary op (replace old new u)
  | binary op l r => binary op (replace old new l) (replace old new r)
  | compare op l r => compare op (replace old new l) (replace old new r)
  | extract high low u => extract high low (replace old new u)
  | concat ts => concat (replaceList old new ts)
  | zeroExtend bits u => zeroExtend bits (replace old new u)
  | signExtend bits u => signExtend bits (replace old new u)
  | apply f ts w => apply f (replaceList old new ts) w
  | select a u w => select a (replace old new u) w

def replaceList (old new : Term) : List Term → List Term
  | [] => []
  | t :: ts => replace old new t :: replaceList old new ts

end

end Term

end SymWord
