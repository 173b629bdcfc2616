import Condense.Expr.Basic

/-!
# Text of expressions

An operand that is itself a binary or ternary expression is printed in parentheses,
which the tree need not hold.
-/

namespace Condense.Expr

set_option autoImplicit false

def isCompound : Expr → Bool
  | binary .. | ternary .. => true
  | _ => false

def guarded (e : Expr) (text : String) : String :=
  if e.isCompound then "(" ++ text ++ ")" else text

mutual

def text : Expr → String
  | var _ v => v.name
  | lit _ c => c.text
  | unary _ op e => op.symbol ++ e.guarded e.text
  | binary _ op l r => l.guarded l.text ++ " " ++ op.symbol ++ " " ++ r.guarded r.text
  | ternary _ c yes no =>
      c.guarded c.text ++ " ? " ++ yes.guarded yes.text ++ " : " ++ no.guarded no.text
  | paren _ e => "(" ++ e.text ++ ")"
  | cast _ ty e => "(" ++ ty.text ++ ")" ++ e.guarded e.text
  | call _ name _ args => name ++ "(" ++ ", ".intercalate (textOf args) ++ ")"

def textOf : List Expr → List String
  | [] => []
  | e :: rest => e.text :: textOf rest

end

end Condense.Expr
