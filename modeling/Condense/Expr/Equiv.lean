import Condense.Expr.Basic

/-!
# Equivalence of expressions

Two expressions are equivalent when they agree once parentheses and casts to an
operand's own type are skipped. Everything else has to match: operators, operand order,
literals with their types, and variables. This is not logical equivalence: `a && b` and
`b && a` differ.
-/

namespace Condense.Expr

set_option autoImplicit false

/-- Skips parentheses and casts that change nothing, at the root only. -/
def strip : Expr → Expr
  | paren _ e => e.strip
  | cast id ty e => if e.ty = ty then e.strip else cast id ty e
  | e => e

mutual

/-- Recursion is on the first expression, whose wrappers are skipped as they are met;
the second is stripped at each step. -/
def isEquiv : Expr → Expr → Bool
  | paren _ a, b => isEquiv a b
  | cast _ ty a, b =>
      if a.ty = ty then isEquiv a b
      else match b.strip with
        | cast _ ty' b' => ty == ty' && isEquiv a b'
        | _ => false
  | var _ v, b =>
      match b.strip with
      | var _ v' => v == v'
      | _ => false
  | lit _ c, b =>
      match b.strip with
      | lit _ c' => c == c'
      | _ => false
  | unary _ op a, b =>
      match b.strip with
      | unary _ op' b' => op == op' && isEquiv a b'
      | _ => false
  | binary _ op l r, b =>
      match b.strip with
      | binary _ op' l' r' => op == op' && isEquiv l l' && isEquiv r r'
      | _ => false
  | ternary _ c yes no, b =>
      match b.strip with
      | ternary _ c' yes' no' => isEquiv c c' && isEquiv yes yes' && isEquiv no no'
      | _ => false
  | call _ name ty args, b =>
      match b.strip with
      | call _ name' ty' args' => name == name' && ty == ty' && areEquiv args args'
      | _ => false

def areEquiv : List Expr → List Expr → Bool
  | [], [] => true
  | a :: as, b :: bs => isEquiv a b && areEquiv as bs
  | _, _ => false

end

end Condense.Expr
