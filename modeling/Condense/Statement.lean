import Condense.Expr.Text

/-!
# Statements, routines and programs

The control statements `if`, `while` and `do` each hold one condition. A routine is a
named statement, a program a list of routines.
-/

namespace Condense

set_option autoImplicit false

inductive Statement where
  | block (body : List Statement)
  | ifThen (condition : Expr) (yes : Statement)
  | ifElse (condition : Expr) (yes no : Statement)
  | whileDo (condition : Expr) (body : Statement)
  | doWhile (body : Statement) (condition : Expr)
  | eval (e : Expr)
  | ret (e : Option Expr)
  | breakLoop
  | continueLoop

inductive Control where
  | branch
  | whileLoop
  | doLoop
  deriving DecidableEq

def Control.text : Control → String
  | branch => "if"
  | whileLoop => "while"
  | doLoop => "do"

namespace Statement

def control? : Statement → Option Control
  | ifThen .. | ifElse .. => some .branch
  | whileDo .. => some .whileLoop
  | doWhile .. => some .doLoop
  | _ => none

def isControl (s : Statement) : Bool :=
  s.control?.isSome

def condition? : Statement → Option Expr
  | ifThen c _ | ifElse c _ _ | whileDo c _ | doWhile _ c => some c
  | _ => none

/-- Puts `c` in the condition's place; a statement without one stays as it is. -/
def setCondition (c : Expr) : Statement → Statement
  | ifThen _ yes => ifThen c yes
  | ifElse _ yes no => ifElse c yes no
  | whileDo _ body => whileDo c body
  | doWhile body _ => doWhile body c
  | s => s

def setBodies : Statement → List Statement → Statement
  | ifThen c _, [yes] => ifThen c yes
  | ifElse c _ _, [yes, no] => ifElse c yes no
  | whileDo c _, [body] => whileDo c body
  | doWhile _ c, [body] => doWhile body c
  | s, _ => s

def kindName : Statement → String
  | block _ => "compound"
  | ifThen .. | ifElse .. => "if"
  | whileDo .. => "while"
  | doWhile .. => "do"
  | eval _ => "expression"
  | ret _ => "return"
  | breakLoop => "break"
  | continueLoop => "continue"

mutual

/-- Every expression in the statement, in the order of the text. -/
def expressions : Statement → List Expr
  | block body => expressionsOf body
  | ifThen c yes => c :: yes.expressions
  | ifElse c yes no => c :: (yes.expressions ++ no.expressions)
  | whileDo c body => c :: body.expressions
  | doWhile body c => body.expressions ++ [c]
  | eval e => [e]
  | ret (some e) => [e]
  | ret none | breakLoop | continueLoop => []

def expressionsOf : List Statement → List Expr
  | [] => []
  | s :: rest => s.expressions ++ expressionsOf rest

end

/-- One line of text, two blanks deeper for each block around it. -/
def line (depth : Nat) (content : String) : String :=
  String.ofList (List.replicate (2 * depth) ' ') ++ content ++ "\n"

mutual

def textAt (depth : Nat) : Statement → String
  | block body => line depth "\x7b" ++ textOf (depth + 1) body ++ line depth "\x7d"
  | ifThen c yes => line depth ("if (" ++ c.text ++ ")") ++ yes.textAt depth
  | ifElse c yes no =>
      line depth ("if (" ++ c.text ++ ")") ++ yes.textAt depth
        ++ line depth "else" ++ no.textAt depth
  | whileDo c body => line depth ("while (" ++ c.text ++ ")") ++ body.textAt depth
  | doWhile body c =>
      line depth "do" ++ body.textAt depth ++ line depth ("while (" ++ c.text ++ ");")
  | eval e => line depth (e.text ++ ";")
  | ret (some e) => line depth ("return " ++ e.text ++ ";")
  | ret none => line depth "return;"
  | breakLoop => line depth "break;"
  | continueLoop => line depth "continue;"

def textOf (depth : Nat) : List Statement → String
  | [] => ""
  | s :: rest => s.textAt depth ++ textOf depth rest

end

def text (s : Statement) : String :=
  s.textAt 0

end Statement

structure Routine where
  name : String
  body : Statement
  /-- Where the routine's code was found. -/
  address : Option UInt64 := none

def Routine.text (r : Routine) : String :=
  (match r.address with
    | some address => "// 0x" ++ Word.upperHex address ++ "\n"
    | none => "")
  ++ r.name ++ "()\n" ++ r.body.text

structure Program where
  routines : List Routine := []

namespace Program

def find? (p : Program) (name : String) : Option Routine :=
  p.routines.find? fun r => r.name == name

def text (p : Program) : String :=
  String.join (p.routines.map fun r => r.text ++ "\n")

end Program

end Condense
