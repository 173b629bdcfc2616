import Condense.Statement

/-!
# Numbering nodes

Gives every node of a tree an id of its own, operands before the node that holds them,
left to right, from the least unused id on. A tree is numbered as a whole once it has been read.
A reader that takes an id at each place where one is written would hand out the same ids in
another order; nothing tells the two apart, since ids are only compared with each other, and
those of a tree are new and distinct either way.
-/

namespace Condense

set_option autoImplicit false

def NodeId.fresh : StateM NodeId NodeId := fun next =>
  (next, next + 1)

namespace Expr

mutual

def numbered : Expr → StateM NodeId Expr
  | var _ v => return var (← NodeId.fresh) v
  | lit _ c => return lit (← NodeId.fresh) c
  | unary _ op e => do
      let e ← e.numbered
      return unary (← NodeId.fresh) op e
  | binary _ op l r => do
      let l ← l.numbered
      let r ← r.numbered
      return binary (← NodeId.fresh) op l r
  | ternary _ c yes no => do
      let c ← c.numbered
      let yes ← yes.numbered
      let no ← no.numbered
      return ternary (← NodeId.fresh) c yes no
  | paren _ e => do
      let e ← e.numbered
      return paren (← NodeId.fresh) e
  | cast _ ty e => do
      let e ← e.numbered
      return cast (← NodeId.fresh) ty e
  | call _ name ty args => do
      let args ← numberedAll args
      return call (← NodeId.fresh) name ty args

def numberedAll : List Expr → StateM NodeId (List Expr)
  | [] => return []
  | e :: rest => do
      let e ← e.numbered
      return e :: (← numberedAll rest)

end

end Expr

namespace Statement

mutual

def numbered : Statement → StateM NodeId Statement
  | block body => return block (← numberedAll body)
  | ifThen c yes => do
      let c ← c.numbered
      return ifThen c (← yes.numbered)
  | ifElse c yes no => do
      let c ← c.numbered
      let yes ← yes.numbered
      return ifElse c yes (← no.numbered)
  | whileDo c body => do
      let c ← c.numbered
      return whileDo c (← body.numbered)
  | doWhile body c => do
      let body ← body.numbered
      return doWhile body (← c.numbered)
  | eval e => return eval (← e.numbered)
  | ret (some e) => return ret (some (← e.numbered))
  | ret none => return ret none
  | breakLoop => return breakLoop
  | continueLoop => return continueLoop

def numberedAll : List Statement → StateM NodeId (List Statement)
  | [] => return []
  | s :: rest => do
      let s ← s.numbered
      return s :: (← numberedAll rest)

end

end Statement

def Routine.numbered (r : Routine) : StateM NodeId Routine := do
  return { r with body := ← r.body.numbered }

def Program.numbered (p : Program) : StateM NodeId Program := do
  return ⟨← p.routines.mapM Routine.numbered⟩

end Condense
