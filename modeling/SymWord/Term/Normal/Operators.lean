import SymWord.Term.Basic

/-!
# Normal forms of operator nodes

`mkUnary`, `mkBinary` and `mkCompare` build an operator node over operands in normal form and bring
the result to normal form by local rules:

* literals are folded, and a literal operand goes to the right where operands may be exchanged;
* `x - c` becomes `x + (-c)`, and the literals of a chain such as `(x + c) + d` are put together;
* units, zeros and equal operands are simplified away;
* a negated comparison becomes the opposite one;
* an equality with a literal is solved for what stands under `+`, `^`, `~` and `-`, and one
  between single bits becomes the bit or its negation.
-/

namespace SymWord

namespace Term

def mkUnary (op : UnaryOp) (t : Term) : Term :=
  match t with
  | lit v w => const (op.eval v w) w
  | unary op' x => if op' = op then x else unary op t
  | compare c l r => if op = .not then compare c.negate l r else unary op t
  | _ => unary op t

/-- What `t op c` is for a literal that makes the operator trivial, at width `w`. -/
def trivial? (op : BinaryOp) (w : Nat) (t : Term) (c cw : Nat) : Option Term :=
  match op with
  | .add | .sub | .shl | .lshr | .ashr => if c = 0 then some t else none
  | .mul => if c = 0 then some (zero w) else if c = 1 then some t else none
  | .udiv | .sdiv => if c = 1 then some t else none
  | .urem | .srem => if c = 1 then some (zero w) else none
  | .and => if c = 0 then some (zero w) else if Word.isMask c cw then some t else none
  | .or => if c = 0 then some t else if Word.isMask c cw then some (lit c cw) else none
  | .xor => if c = 0 then some t else if Word.isMask c cw then some (mkUnary .not t) else none

/-- The normal form of `t op c` at width `w`, for the literal `c` of width `cw`. -/
def mkBinaryLit (op : BinaryOp) (w : Nat) (t : Term) (c cw : Nat) : Term :=
  match t with
  | lit v _ => const (op.eval v c w) w
  | binary op' x (lit d dw) =>
    match trivial? op w (binary op' x (lit d dw)) c cw with
    | some u => u
    | none =>
      if op.isAssociative ∧ op' = op then mkBinaryLit op x.width x (op.eval d c w) w
      else binary op (binary op' x (lit d dw)) (lit c cw)
  | t =>
    match trivial? op w t c cw with
    | some u => u
    | none => binary op t (lit c cw)

/-- The normal form of `c op t` for an operator whose operands may not be exchanged. -/
def mkLitBinary (op : BinaryOp) (c cw : Nat) (t : Term) : Term :=
  if c = 0 then
    match op with
    | .sub => mkUnary .neg t
    | .shl | .lshr | .ashr | .urem => zero cw
    | _ => binary op (lit c cw) t
  else binary op (lit c cw) t

def mkBinary (op : BinaryOp) (l r : Term) : Term :=
  match l, r with
  | lit a w, lit b _ => const (op.eval a b w) w
  | lit a w, r => if op.isCommutative then mkBinaryLit op w r a w else mkLitBinary op a w r
  | l, lit c cw =>
    if op = .sub then mkBinaryLit .add l.width l (Word.negate c l.width) l.width
    else mkBinaryLit op l.width l c cw
  | l, r =>
    if l = r then
      match op with
      | .xor | .sub => zero l.width
      | .or | .and => l
      | _ => binary op l r
    else binary op l r

/-- The comparison of `t` with the literal `c` once nothing can be moved to the other side. -/
def compareLit (op : Comparison) (t : Term) (c cw : Nat) : Term :=
  if op.isEquality ∧ t.width = 1 then
    if (op == .eq) = (c == 1) then t else mkUnary .not t
  else compare op t (lit c cw)

/-- The normal form of the comparison of `t` with the literal `c` of width `cw`. -/
def mkCompareLit (op : Comparison) (t : Term) (c cw : Nat) : Term :=
  match t with
  | lit v w => ofBool (op.eval v c w)
  | binary .add x (lit d dw) =>
    if op.isEquality ∧ x.width ≠ 1 then
      mkCompareLit op x (BinaryOp.sub.eval c d x.width) x.width
    else compareLit op (binary .add x (lit d dw)) c cw
  | binary .xor x (lit d dw) =>
    if op.isEquality ∧ x.width ≠ 1 then
      mkCompareLit op x (BinaryOp.xor.eval c d x.width) x.width
    else compareLit op (binary .xor x (lit d dw)) c cw
  | unary u x =>
    if op.isEquality ∧ x.width ≠ 1 then mkCompareLit op x (u.eval c x.width) x.width
    else compareLit op (unary u x) c cw
  | t => compareLit op t c cw

def mkCompare (op : Comparison) (l r : Term) : Term :=
  match l, r with
  | lit a w, lit b _ => ofBool (op.eval a b w)
  | lit a w, r => mkCompareLit op.swap r a w
  | l, lit c cw => mkCompareLit op l c cw
  | l, r => if l = r then ofBool op.isReflexive else compare op l r

end Term

end SymWord
