import SymWord.Term.Basic

/-!
# Declarations

A declaration is a free name of a term together with its sort: a plain bitvector, a function with
the widths of its arguments, or an array with the width of its index. The declarations of a term
are listed in the order of their first occurrence, from left to right and outermost first. One
name used at two sorts gives two declarations.
-/

namespace SymWord

inductive Declaration where
  | constant (name : String) (width : Nat)
  | function (name : String) (domain : List Nat) (width : Nat)
  | array (name : String) (indexWidth width : Nat)
  deriving DecidableEq

namespace Declaration

def name : Declaration → String
  | constant n _ => n
  | function n _ _ => n
  | array n _ _ => n

/-- The width of the bitvector, of a function's result, of an array's elements. -/
def width : Declaration → Nat
  | constant _ w => w
  | function _ _ w => w
  | array _ _ w => w

def isConstant : Declaration → Bool
  | constant _ _ => true
  | _ => false

theorem eq_constant {d : Declaration} (h : d.isConstant = true) : ∃ n w, d = constant n w := by
  cases d with
  | constant n w => exact ⟨n, w, rfl⟩
  | _ => cases h

/-- The name and width of a plain bitvector. -/
def constant? : Declaration → Option (String × Nat)
  | constant n w => some (n, w)
  | _ => none

end Declaration

namespace Term

mutual

/-- Every free name in the order in which a term mentions it, with repetitions. -/
def mentions : Term → List Declaration
  | lit _ _ => []
  | sym n w => [.constant n w]
  | unary _ t => t.mentions
  | binary _ l r => l.mentions ++ r.mentions
  | compare _ l r => l.mentions ++ r.mentions
  | extract _ _ t => t.mentions
  | concat ts => listMentions ts
  | zeroExtend _ t => t.mentions
  | signExtend _ t => t.mentions
  | apply f ts w => .function f (ts.map width) w :: listMentions ts
  | select a t w => .array a t.width w :: t.mentions

def listMentions : List Term → List Declaration
  | [] => []
  | t :: ts => t.mentions ++ listMentions ts

end

def declarations (t : Term) : List Declaration := t.mentions.eraseDups

theorem mem_declarations {t : Term} {d : Declaration} : d ∈ t.declarations ↔ d ∈ t.mentions :=
  List.mem_eraseDups

end Term

end SymWord
